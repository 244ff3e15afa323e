import LogShipping.Proofs.Worker.RelaySteps

/-!
# A damaged file stalls its queue

Where the first file of a queue is damaged, its workers ship what comes before the damage and stop there.
They do not pass over it: the position does not move beyond it, the file is not taken off, and nothing
behind it is shipped, however often the work is begun anew and by whomever.
-/

namespace LogShipping.Worker

open Log QueueTables

namespace Relay

variable {queue : Queue} {schema : Schema} {original : Directory} {relay : Relay} {head : FileRef}
  {content : Bytes} {damage : Nat}

/-- A queue whose first file is damaged has come to a stop in front of the damage, or not yet so far. -/
structure Stalled (queue : Queue) (schema : Schema) (head : FileRef) (content : Bytes) (damage : Nat)
    (relay : Relay) : Prop where
  /-- The file is not taken off. -/
  unfinished : relay.finished = []
  /-- The stored offset is not beyond the damage, and every record before it with cells of global scope is
  in a shipment that was acknowledged. -/
  offset : ∃ offset, relay.scene.position? = some (head, offset) ∧
    queue.offset ≤ offset ∧ offset ≤ damage ∧
    ∀ place entry kept, Found content queue.offset place entry → place < offset →
      entry.filter schema = some kept →
        ∃ passage ∈ relay.acknowledged, passage.covers ⟨head, place⟩ = true ∧
          kept ∈ passage.shipment.entries
  /-- Whatever was in a worker's hands lies in this file and in front of the damage. -/
  shipped : ∀ passage ∈ relay.underway, passage.file = head ∧ passage.stop ≤ damage ∧
    ∃ before read, Chain content queue.offset passage.start before ∧
      Chain content passage.start passage.stop read ∧
      passage.shipment.entries = read.filterMap (Entry.filter schema)

namespace Orderly

variable (h : Orderly queue schema original relay) (hhead : queue.head? = some head)
  (hcontent : content? original head = some content)

include h hhead

/-- As long as no file was taken off, the queue stands in its first one. -/
theorem position_head (hfinished : relay.finished = []) :
    ∃ offset, relay.scene.position? = some (head, offset) := by
  obtain ⟨added, hlisted⟩ := h.listed
  obtain ⟨later, hfiles⟩ := List.head?_eq_some_iff.mp hhead
  rw [files, done, hfinished, hfiles, List.map_nil, List.nil_append] at hlisted
  have hfirst : relay.scene.listed.head? = some head := by
    rw [hlisted]
    rfl
  obtain ⟨offset, hoffset⟩ := Scene.offset_of_listed h.wellFormed hfirst
  exact ⟨offset, Scene.position?_eq_some_iff.mpr ⟨hfirst, hoffset⟩⟩

include hcontent

/-- A damaged first file is never taken off. -/
theorem finished_eq_nil (hdamage : Damaged content queue.offset damage) : relay.finished = [] := by
  cases hfinished : relay.finished with
  | nil => rfl
  | cons place rest =>
    have hplace : place ∈ relay.finished := hfinished ▸ List.mem_cons_self
    have hfile : place.file = head := by
      obtain ⟨added, hlisted⟩ := h.listed
      obtain ⟨later, hfiles⟩ := List.head?_eq_some_iff.mp hhead
      rw [files, done, hfinished, hfiles, List.map_cons, List.cons_append, List.cons_append] at hlisted
      exact (List.cons.inj hlisted).1
    obtain ⟨more, hnow⟩ := (h.written head hhead).content hcontent
    obtain ⟨found, written, hwhole, hframe, hfirst⟩ := (h.spent place hplace).told _ (hfile ▸ hnow)
    -- The damage was there already when the end of the file was found.
    obtain ⟨grown, rfl⟩ := hfirst (hfile ▸ hhead) content (hfile ▸ hcontent)
    have hthen := hdamage.append_right grown
    obtain ⟨before, hbefore⟩ := h.reached place.file place.offset _ (.inl hplace) (hfile ▸ hnow)
    rw [Queue.firstOffset, if_pos (hfile ▸ hhead), hwhole] at hbefore
    obtain ⟨_, hchain⟩ := hthen.chain
    have hstop := (hthen.append_right written).le hbefore
    exact absurd hframe (hthen.not_incomplete (hchain.of_append hbefore hstop))

theorem stalled (hdamage : Damaged content queue.offset damage) :
    Stalled queue schema head content damage relay := by
  obtain ⟨more, hnow⟩ := (h.written head hhead).content hcontent
  have hfinished := h.finished_eq_nil hhead hcontent hdamage
  have hfirst : queue.firstOffset head = queue.offset := if_pos hhead
  have hlonger := hdamage.append_right more
  obtain ⟨offset, hposition⟩ := h.position_head hhead hfinished
  constructor
  case unfinished => exact hfinished
  case offset =>
    obtain ⟨before, hbefore⟩ := h.reached head offset _ (.inr hposition) hnow
    rw [hfirst] at hbefore
    refine ⟨offset, hposition, hbefore.le, hlonger.le hbefore, fun place entry kept hfound hlt hkept ↦ ?_⟩
    have hrecorded : Recorded queue relay.scene.directory ⟨head, place⟩ entry :=
      ⟨_, hnow, by rw [hfirst]; exact hfound.append_right more⟩
    have hlisted := List.mem_of_head? (Scene.position?_eq_some_iff.mp hposition).1
    have hdue : relay.Due queue schema ⟨head, place⟩ :=
      ⟨List.mem_append_right _ hlisted, entry, kept, hrecorded, hkept⟩
    obtain ⟨passage, hpassage, hcovers⟩ := h.settled ⟨head, place⟩ ⟨offset, .inr hposition, hlt⟩ hdue
    have hdrawn := (h.drawn passage (h.arrived passage (h.acknowledged passage hpassage))).1
    exact ⟨passage, hpassage, hcovers, hdrawn.mem_entries hcovers hrecorded hkept⟩
  case shipped =>
    intro passage hpassage
    obtain ⟨⟨other, before, read, hother, hstart, hread, hentries⟩, _, hthere, -⟩ :=
      h.drawn passage hpassage
    have hfile : passage.file = head := by
      have hat := hthere.resolve_left (by rw [hfinished]; exact List.not_mem_nil)
      rw [hposition] at hat
      exact (congrArg Prod.fst (Option.some.inj hat)).symm
    rw [hfile] at hother hstart
    cases hnow.symm.trans hother
    rw [hfirst] at hstart
    have hstop := hlonger.le (hstart.append hread)
    obtain ⟨_, hchain⟩ := hdamage.chain
    have hbefore := hchain.of_append hstart (Nat.le_trans hread.le hstop)
    have hwhole := hchain.of_append (hstart.append hread) hstop
    obtain ⟨rest, hrest, hsame⟩ := hbefore.split hwhole hread.le
    rw [List.append_cancel_left hsame] at hentries
    exact ⟨hfile, hstop, before, rest, hbefore, hrest, hentries⟩

end Orderly

/-- In every run on a queue whose first file is damaged behind the queue's offset, the queue stays in that
file and does not get past the damage, and what it has passed was acknowledged. -/
theorem stalled_of_leads {world : World} {facilities : Facilities} {key : QueueKey} {sink : Sink}
    {circuit : Nat} {gate : Gate} {queue : Queue} {head : FileRef} {content : Bytes} {relay : Relay}
    (hreach : world.database.queues.Reachable)
    (hqueue : world.database.queues.get? key = some queue) (hhead : queue.head? = some head)
    (hcontent : content? world.directory head = some content)
    (hdamaged : (decoding (content.drop queue.offset)).halt ≠ .incomplete)
    (hleads : (Relay.opening ⟨world, facilities, .create key sink circuit gate⟩).Leads relay) :
    Stalled queue world.schema head content
      (queue.offset + (decoding (content.drop queue.offset)).consumed) relay := by
  have hopening : Orderly queue world.schema world.directory
      (.opening ⟨world, facilities, .create key sink circuit gate⟩) := by
    refine .opening ⟨world, facilities, .create key sink circuit gate⟩ ?_ hreach hqueue
    trivial
  exact (hopening.leads hleads).stalled hhead hcontent (damaged_of_decoding hdamaged)

end Relay

namespace Sample

/-- A stored entry, and behind it the same with one octet of the payload lost. -/
def spoiled : Bytes := record ++ record.set 20 0

def spoiledWorld : World := { world with directory := ⟨[("w", spoiled)]⟩ }

/-- A worker has come to the second record. -/
def halted : Relay :=
  Nat.repeat Relay.work 12
    (.opening ⟨spoiledWorld, facilities, .create key (.remote "p") 0 ⟨"p", 0⟩⟩)

end Sample

namespace Relay

/-- The record in front of the damage is delivered, and the worker stalls there. -/
theorem stalled_after_record :
    Sample.halted.turn.worker.phase = .stalled ∧
      Sample.halted.scene.position? = some (⟨1, "w"⟩, 42) ∧
      Sample.halted.acknowledged.map (·.shipment) = [Sample.shipment] ∧
      Stalled ⟨Sample.key, [⟨1, "w"⟩], 0⟩ (.ofNames ["f"]) ⟨1, "w"⟩ Sample.spoiled 42 Sample.halted := by
  refine ⟨by decide +kernel, by decide +kernel, by decide +kernel, ?_⟩
  have hframe : Frame.decode Sample.spoiled = .complete (Sample.record.drop 8) 42 := by decide +kernel
  have hfault : Frame.decode (Sample.spoiled.drop 42) = .corrupt (.checksum 1090159481 3515431743) := by
    decide +kernel
  have hdecoding : decoding Sample.spoiled =
      ⟨[Sample.entry], 42, .corrupt (.checksum 1090159481 3515431743)⟩ := by
    rw [decoding_of_record hframe (show Entry.decode _ = .ok Sample.entry from rfl),
      decoding_of_corrupt hfault]
    rfl
  have hqueue : Sample.spoiledWorld.database.queues.get? Sample.key =
      some ⟨Sample.key, [⟨1, "w"⟩], 0⟩ := by decide +kernel
  have hcontent : content? Sample.spoiledWorld.directory ⟨1, "w"⟩ = some Sample.spoiled := by decide +kernel
  have hdamaged : (decoding (Sample.spoiled.drop 0)).halt ≠ .incomplete := by
    rw [List.drop_zero, hdecoding]
    nofun
  have hleads : (opening ⟨Sample.spoiledWorld, Sample.facilities,
      .create Sample.key (.remote "p") 0 ⟨"p", 0⟩⟩).Leads Sample.halted := leads_repeat _ 12
  have hstalled := stalled_of_leads ⟨_, rfl⟩ hqueue rfl hcontent hdamaged hleads
  rw [List.drop_zero, hdecoding] at hstalled
  exact hstalled

end Relay

end LogShipping.Worker
