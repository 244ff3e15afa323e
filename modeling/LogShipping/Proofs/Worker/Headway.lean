import LogShipping.Proofs.Worker.Relay

/-!
# What a queue leaves behind

On its way through its files a queue leaves nothing behind that the peer has not acknowledged: every record
with cells of global scope in front of its position lies in an acknowledged passage. A passage begins at the
position the queue has when it is read, and the position never goes back. So whatever is still underway
begins where everything before it has arrived already, and it brings what is new in the order of the log.
The exception is what is written to a file after a worker has come to the end of it and before the worker
takes it off: that is missed, and no passage ever has it.
-/

namespace LogShipping

/-- Where the reading of a file begins: the first one of the queue as it was given is read from the queue's
offset on. -/
def Queue.firstOffset (queue : Queue) (file : FileRef) : Nat :=
  if queue.head? = some file then queue.offset else 0

namespace Worker

open Log QueueTables

/-- A record is found at a place, reading the files of a queue. -/
def Recorded (queue : Queue) (directory : Directory) (place : LogPlace) (entry : Entry) : Prop :=
  ∃ content, content? directory place.file = some content ∧
    Found content (queue.firstOffset place.file) place.offset entry

/-- The passage was read from the files of a queue, from the end of some record on, and its shipment holds
what the filter leaves of its records, in their order. -/
def Drawn (queue : Queue) (schema : Schema) (directory : Directory) (passage : Passage) : Prop :=
  ∃ content before read, content? directory passage.file = some content ∧
    Chain content (queue.firstOffset passage.file) passage.start before ∧
    Chain content passage.start passage.stop read ∧
    passage.shipment.entries = read.filterMap (Entry.filter schema)

/-- What is left of a record is in the shipment of every passage that covers its place. -/
theorem Drawn.mem_entries {queue : Queue} {schema : Schema} {directory : Directory} {passage : Passage}
    {place : LogPlace} {entry kept : Entry} (h : Drawn queue schema directory passage)
    (hcovers : passage.covers place = true) (hrecorded : Recorded queue directory place entry)
    (hkept : entry.filter schema = some kept) : kept ∈ passage.shipment.entries := by
  obtain ⟨content, _, read, hcontent, hbefore, hread, hentries⟩ := h
  obtain ⟨other, hother, hfound⟩ := hrecorded
  obtain ⟨hfile, hstart, hstop⟩ := Passage.covers_iff.mp hcovers
  rw [hfile] at hcontent hbefore
  cases hcontent.symm.trans hother
  rw [hentries]
  exact List.mem_filterMap.mpr ⟨entry, (hfound.of_chain hbefore hstart).mem hread hstop, hkept⟩

namespace Relay

/-- A record with cells of global scope stands at the place, in one of the queue's files. -/
def Due (queue : Queue) (schema : Schema) (relay : Relay) (place : LogPlace) : Prop :=
  place.file ∈ relay.files ∧ ∃ entry kept,
    Recorded queue relay.scene.directory place entry ∧ entry.filter schema = some kept

/-- The queue stands in the file at the offset, or it stood there when the file was taken off. -/
def Reached (relay : Relay) (file : FileRef) (offset : Nat) : Prop :=
  ⟨file, offset⟩ ∈ relay.finished ∨ relay.scene.position? = some (file, offset)

/-- The queue has come behind the place. -/
def Passed (relay : Relay) (place : LogPlace) : Prop :=
  ∃ offset, relay.Reached place.file offset ∧ place.offset < offset

/-- The queue has come to where the passage begins. -/
def Begun (relay : Relay) (passage : Passage) : Prop :=
  ∃ offset, relay.Reached passage.file offset ∧ passage.start ≤ offset

/-- The file was taken off before the queue came to the place. -/
def Missed (relay : Relay) (place : LogPlace) : Prop :=
  ∃ stop, ⟨place.file, stop⟩ ∈ relay.finished ∧ stop ≤ place.offset

/-- The number of passages that reached the peer before the first one with this place in it did. -/
def firstArrival (relay : Relay) (place : LogPlace) : Nat := relay.arrived.findIdx (·.covers place)

/-- A worker found nothing more to read in the file behind the offset, and no passage reaches further. In
the queue's first file this was not before the queue was given. -/
structure Spent (queue : Queue) (original : Directory) (underway : List Passage) (directory : Directory)
    (file : FileRef) (stop : Nat) : Prop where
  within : ∀ passage ∈ underway, passage.file = file → passage.stop ≤ stop
  told : ∀ content, content? directory file = some content →
    ∃ found written, content = found ++ written ∧ Frame.decode (found.drop stop) = .incomplete ∧
      (queue.head? = some file → ∀ first, content? original file = some first → first <+: found)

/-- A passage in hand begins at the position. -/
structure Fits (queue : Queue) (schema : Schema) (original : Directory) (underway : List Passage)
    (scene : Scene) (passage : Passage) : Prop where
  position : scene.position? = some (passage.file, passage.start)
  read : ∃ content read, content? scene.directory passage.file = some content ∧
    Chain content passage.start passage.stop read ∧
    passage.shipment.entries = read.filterMap (Entry.filter schema)
  spent : passage.finishable = true →
    Spent queue original underway scene.directory passage.file passage.stop

/-- What is true of the phase of the worker. -/
def InHand (queue : Queue) (schema : Schema) (original : Directory) (relay : Relay) : Phase → Prop
  | .reading file offset _ => relay.scene.position? = some (file, offset)
  | .dropping =>
    (∃ added, relay.done = queue.files ++ added) ∧
      ∀ passage ∈ relay.underway, ∃ offset,
        ⟨passage.file, offset⟩ ∈ relay.finished ∧ passage.start ≤ offset
  | .advancing passage =>
    Fits queue schema original relay.underway relay.scene passage ∧
      (passage.shipment.entries = [] ∨ passage ∈ relay.acknowledged)
  | .finishing file =>
    ∃ offset, relay.scene.position? = some (file, offset) ∧
      Spent queue original relay.underway relay.scene.directory file offset
  | phase => ∀ passage, phase.passage? = some passage →
    Fits queue schema original relay.underway relay.scene passage

/-- What is true of a relay that began with the given queue. -/
structure Orderly (queue : Queue) (schema : Schema) (original : Directory) (relay : Relay) : Prop where
  fixed : relay.scene.schema = schema
  wellFormed : relay.scene.database.queues.WellFormed
  /-- A queue without files stands at the start. -/
  fresh : ∀ offset, relay.scene.database.queues.offset? relay.scene.key = some offset →
    relay.scene.listed = [] → offset = 0
  listed : ∃ added, relay.files = queue.files ++ added
  ascending : relay.files.Pairwise fun x y ↦ rank x.seq < rank y.seq
  written : ∀ file, queue.head? = some file → Continues original relay.scene.directory file
  /-- The queue comes to the ends of records only, and not before where the reading of the file began. -/
  reached : ∀ file offset content, relay.Reached file offset →
    content? relay.scene.directory file = some content →
    ∃ before, Chain content (queue.firstOffset file) offset before
  spent : ∀ place ∈ relay.finished,
    Spent queue original relay.underway relay.scene.directory place.file place.offset
  /-- Nothing is left behind. -/
  settled : ∀ place, relay.Passed place → relay.Due queue schema place →
    ∃ passage ∈ relay.acknowledged, passage.covers place = true
  drawn : ∀ passage ∈ relay.underway,
    Drawn queue schema relay.scene.directory passage ∧ relay.Begun passage
  arrived : ∀ passage ∈ relay.arrived, passage ∈ relay.underway
  acknowledged : ∀ passage ∈ relay.acknowledged, passage ∈ relay.arrived
  inOrder : ∀ x y, relay.Due queue schema x → ¬ relay.Missed x → x.Before y →
    relay.firstArrival x ≤ relay.firstArrival y
  inHand : relay.InHand queue schema original relay.turn.worker.phase

/-! ## What is found where -/

section Places

variable {queue : Queue} {schema : Schema} {original : Directory} {relay : Relay} {passage : Passage}
  {file : FileRef} {offset : Nat} {x y : LogPlace}

theorem mem_done : file ∈ relay.done ↔ ∃ offset, ⟨file, offset⟩ ∈ relay.finished := by
  rw [done, List.mem_map]
  constructor
  · rintro ⟨place, hplace, rfl⟩
    exact ⟨place.offset, hplace⟩
  · rintro ⟨offset, hplace⟩
    exact ⟨_, hplace, rfl⟩

theorem Reached.file_mem (h : relay.Reached file offset) :
    file ∈ relay.done ∨ relay.scene.listed.head? = some file :=
  h.imp (fun hplace ↦ mem_done.mpr ⟨offset, hplace⟩) fun hposition ↦
    (Scene.position?_eq_some_iff.mp hposition).1

/-- What the queue has come to, it has come to whatever others do. -/
theorem Reached.of_spares {turn : Turn} (h : relay.Reached file offset)
    (hspares : Spares relay.finished relay.scene turn.scene) : (relay.setTurn turn).Reached file offset :=
  h.imp_right hspares.position

/-- Of files in ascending order, those before one that was taken off, or before the first one listed, were
taken off. -/
theorem mem_done_of_lt {done listed : List FileRef} {file other : FileRef}
    (hascending : (done ++ listed).Pairwise fun x y ↦ rank x.seq < rank y.seq)
    (hfile : file ∈ done ∨ listed.head? = some file) (hother : other ∈ done ++ listed)
    (hlt : rank other.seq < rank file.seq) : other ∈ done := by
  obtain ⟨-, hlisted, hacross⟩ := List.pairwise_append.mp hascending
  refine (List.mem_append.mp hother).resolve_right fun hmem ↦ ?_
  rcases hfile with hdone | hhead
  · have := hacross file hdone other hmem
    omega
  · obtain ⟨later, rfl⟩ := List.head?_eq_some_iff.mp hhead
    rcases List.mem_cons.mp hmem with rfl | hlater
    · omega
    · have := (List.pairwise_cons.mp hlisted).1 other hlater
      omega

/-- Of all files only the first of those the queue was given with is read from another place than its
start. -/
theorem firstOffset_eq_zero {done listed added : List FileRef} {file : FileRef}
    (hlisted : done ++ listed = queue.files ++ added)
    (hascending : (done ++ listed).Pairwise fun x y ↦ rank x.seq < rank y.seq)
    (hfile : file ∈ listed) (hbegun : done ≠ [] ∨ queue.files = []) : queue.firstOffset file = 0 := by
  refine if_neg fun hhead ↦ ?_
  obtain ⟨later, hfiles⟩ := List.head?_eq_some_iff.mp hhead
  rcases hbegun with hsome | hnone
  · obtain ⟨first, rest, rfl⟩ := List.exists_cons_of_ne_nil hsome
    rw [hfiles, List.cons_append, List.cons_append] at hlisted
    obtain ⟨rfl, -⟩ := List.cons.inj hlisted
    have := (List.pairwise_append.mp hascending).2.2 first List.mem_cons_self first hfile
    omega
  · rw [hnone] at hfiles
    cases hfiles

/-- What comes before a place in a passage lies in a file that was taken off, or in the same file before the
end of the passage. -/
theorem file_of_before {done listed : List FileRef}
    (hascending : (done ++ listed).Pairwise fun x y ↦ rank x.seq < rank y.seq)
    (hfile : passage.file ∈ done ∨ listed.head? = some passage.file)
    (hx : x.file ∈ done ++ listed) (hbefore : x.Before y) (hy : passage.covers y = true) :
    x.file ∈ done ∨ (x.file = passage.file ∧ x.offset < passage.stop) := by
  obtain ⟨hsame, -, hstop⟩ := Passage.covers_iff.mp hy
  rcases hbefore with hlt | ⟨heq, hlt⟩
  · exact .inl (mem_done_of_lt hascending hfile hx (hsame ▸ hlt))
  · exact .inr ⟨heq.trans hsame.symm, Nat.lt_trans hlt hstop⟩

/-- What was not missed in a file that was taken off was passed. -/
theorem passed_of_mem_done (hdone : x.file ∈ relay.done) (hmissed : ¬ relay.Missed x) :
    relay.Passed x := by
  obtain ⟨stop, hplace⟩ := mem_done.mp hdone
  refine ⟨stop, .inl hplace, Nat.not_le.mp fun hle ↦ hmissed ⟨stop, hplace, hle⟩⟩

namespace Orderly

variable (h : Orderly queue schema original relay)

include h

/-- Before a place in a passage that is underway there is nothing but what the passage has and what the
queue has passed. -/
theorem covers_or_passed (hpassage : passage ∈ relay.underway) (hx : x.file ∈ relay.files)
    (hmissed : ¬ relay.Missed x) (hbefore : x.Before y) (hy : passage.covers y = true) :
    passage.covers x = true ∨ relay.Passed x := by
  obtain ⟨-, offset, hreached, hle⟩ := h.drawn passage hpassage
  rcases file_of_before h.ascending hreached.file_mem hx hbefore hy with hdone | ⟨hsame, hstop⟩
  · exact .inr (passed_of_mem_done hdone hmissed)
  · by_cases hstart : passage.start ≤ x.offset
    case pos => exact .inl (Passage.covers_iff.mpr ⟨hsame.symm, hstart, hstop⟩)
    case neg => exact .inr ⟨offset, hsame ▸ hreached, by omega⟩

/-- What the queue has passed has reached the peer. -/
theorem arrived_of_passed (hdue : relay.Due queue schema x) (hpassed : relay.Passed x) :
    relay.firstArrival x < relay.arrived.length := by
  obtain ⟨passage, hpassage, hcovers⟩ := h.settled x hpassed hdue
  exact List.findIdx_lt_length.mpr ⟨passage, h.acknowledged passage hpassage, hcovers⟩

/-- What was missed is in no passage. -/
theorem covers_of_missed (hmissed : relay.Missed x) (hpassage : passage ∈ relay.underway) :
    passage.covers x = false := by
  obtain ⟨stop, hplace, hle⟩ := hmissed
  rw [← Bool.not_eq_true, Passage.covers_iff]
  rintro ⟨hfile, -, hlt⟩
  have hwithin : passage.stop ≤ stop := (h.spent _ hplace).within passage hpassage hfile
  omega

/-- The file in which the queue stands was not taken off. -/
theorem not_mem_done (hposition : relay.scene.position? = some (file, offset)) : file ∉ relay.done :=
  fun hdone ↦ by
    have hlisted := List.mem_of_head? (Scene.position?_eq_some_iff.mp hposition).1
    have hlt := (List.pairwise_append.mp h.ascending).2.2 file hdone file hlisted
    exact absurd hlt (Int.lt_irrefl _)

end Orderly

end Places

/-! ## Arrivals -/

section Arrivals

variable {queue : Queue} {schema : Schema} {original : Directory} {relay : Relay} {passage : Passage}

theorem firstArrival_arrive (relay : Relay) (passage : Passage) (place : LogPlace) :
    (relay.arrive passage).firstArrival place =
      if relay.firstArrival place < relay.arrived.length then relay.firstArrival place
      else if passage.covers place = true then relay.arrived.length else relay.arrived.length + 1 := by
  unfold firstArrival arrive
  dsimp only
  rw [List.findIdx_append, List.findIdx_singleton]
  split
  case isTrue => rfl
  case isFalse => split <;> simp [Nat.add_comm]

theorem firstArrival_le (relay : Relay) (place : LogPlace) :
    relay.firstArrival place ≤ relay.arrived.length := List.findIdx_le_length

namespace Orderly

variable (h : Orderly queue schema original relay)

include h

/-- Whatever is underway keeps the order when it arrives: all that comes before it has arrived, or comes
with it. -/
theorem inOrder_arrive (hpassage : passage ∈ relay.underway) {x y : LogPlace}
    (hdue : relay.Due queue schema x) (hmissed : ¬ relay.Missed x) (hbefore : x.Before y) :
    (relay.arrive passage).firstArrival x ≤ (relay.arrive passage).firstArrival y := by
  have hold := h.inOrder x y hdue hmissed hbefore
  have hle := relay.firstArrival_le x
  rw [firstArrival_arrive, firstArrival_arrive]
  by_cases hthere : relay.firstArrival y < relay.arrived.length
  case pos =>
    rw [if_pos hthere, if_pos (Nat.lt_of_le_of_lt hold hthere)]
    exact hold
  case neg =>
    rw [if_neg hthere]
    by_cases hcovers : passage.covers y = true
    case pos =>
      rw [if_pos hcovers]
      rcases h.covers_or_passed hpassage hdue.1 hmissed hbefore hcovers with hx | hpassed
      · rw [if_pos hx]
        split <;> omega
      · rw [if_pos (h.arrived_of_passed hdue hpassed)]
        exact hle
    case neg =>
      rw [if_neg hcovers]
      split
      case isTrue => omega
      case isFalse => split <;> omega

theorem arrive (hpassage : passage ∈ relay.underway) :
    Orderly queue schema original (relay.arrive passage) where
  fixed := h.fixed
  wellFormed := h.wellFormed
  fresh := h.fresh
  listed := h.listed
  ascending := h.ascending
  written := h.written
  reached := h.reached
  spent := h.spent
  settled := h.settled
  drawn := h.drawn
  arrived other hother := by
    rcases List.mem_append.mp hother with hold | hnew
    · exact h.arrived other hold
    · rwa [List.mem_singleton.mp hnew]
  acknowledged other hother := List.mem_append_left _ (h.acknowledged other hother)
  inOrder _ _ hdue hmissed hbefore := h.inOrder_arrive hpassage hdue hmissed hbefore
  inHand := h.inHand

/-- A passage that is underway is acknowledged. -/
theorem acknowledge (hpassage : passage ∈ relay.underway) :
    Orderly queue schema original (relay.acknowledge passage) where
  fixed := h.fixed
  wellFormed := h.wellFormed
  fresh := h.fresh
  listed := h.listed
  ascending := h.ascending
  written := h.written
  reached := h.reached
  spent := h.spent
  settled place hpassed hdue := by
    obtain ⟨other, hother, hcovers⟩ := h.settled place hpassed hdue
    exact ⟨other, List.mem_append_left _ hother, hcovers⟩
  drawn := h.drawn
  arrived := (h.arrive hpassage).arrived
  acknowledged other hother := by
    rcases List.mem_append.mp hother with hold | hnew
    · exact List.mem_append_left _ (h.acknowledged other hold)
    · exact List.mem_append_right _ hnew
  inOrder := (h.arrive hpassage).inOrder
  inHand := by
    have hinHand := h.inHand
    show (relay.acknowledge passage).InHand queue schema original relay.turn.worker.phase
    cases hphase : relay.turn.worker.phase with
    | advancing other =>
      rw [hphase] at hinHand
      exact ⟨hinHand.1, hinHand.2.imp_right (List.mem_append_left _)⟩
    | _ =>
      rw [hphase] at hinHand
      exact hinHand

end Orderly

end Arrivals

/-! ## What a worker has in hand -/

section InHand

variable {queue : Queue} {schema : Schema} {original directory after : Directory} {relay : Relay}
  {underway : List Passage} {scene : Scene} {passage : Passage} {phase : Phase} {file : FileRef}
  {stop : Nat}

/-- What is written to the file later changes nothing. -/
theorem Spent.of_continues (h : Spent queue original underway directory file stop)
    (hcontinues : Continues directory after file) : Spent queue original underway after file stop where
  within := h.within
  told content hcontent := by
    cases hold : content? directory file with
    | none => cases (hcontinues.missing hold).symm.trans hcontent
    | some before =>
      obtain ⟨more, hmore⟩ := hcontinues.content hold
      cases hmore.symm.trans hcontent
      obtain ⟨found, written, rfl, htold⟩ := h.told before hold
      exact ⟨found, written ++ more, List.append_assoc .., htold⟩

/-- Another passage may be underway if it does not reach further, or is of another file. -/
theorem Spent.hold (h : Spent queue original underway directory file stop)
    (hpassage : passage.file = file → passage.stop ≤ stop) :
    Spent queue original (underway ++ [passage]) directory file stop where
  within other hother hfile := by
    rcases List.mem_append.mp hother with hold | hnew
    · exact h.within other hold hfile
    · cases List.mem_singleton.mp hnew
      exact hpassage hfile
  told := h.told

theorem Fits.hold (h : Fits queue schema original underway scene passage) :
    Fits queue schema original (underway ++ [passage]) scene passage where
  position := h.position
  read := h.read
  spent hfinishable := (h.spent hfinishable).hold fun _ ↦ Nat.le_refl _

/-- A passage in hand fits whatever others do. -/
theorem Fits.of_spares {finished : List LogPlace} {later : Scene} (hspares : Spares finished scene later)
    (h : Fits queue schema original underway scene passage) :
    Fits queue schema original underway later passage := by
  have hhead := (Scene.position?_eq_some_iff.mp h.position).1
  have hcontinues := hspares.written _ (.inr hhead)
  obtain ⟨content, read, hcontent, hread, hentries⟩ := h.read
  obtain ⟨more, hmore⟩ := hcontinues.content hcontent
  exact ⟨hspares.position h.position, ⟨content ++ more, read, hmore, hread.append_right more, hentries⟩,
    fun hfinishable ↦ (h.spent hfinishable).of_continues hcontinues⟩

theorem inHand_of_free (h : phase.Free) : relay.InHand queue schema original phase := by
  cases phase <;> first | exact h.elim | (rintro passage ⟨⟩)

theorem inHand_of_passage (h : phase.passage? = some passage)
    (hfits : Fits queue schema original relay.underway relay.scene passage) :
    relay.InHand queue schema original phase := by
  cases phase <;> cases h <;> (rintro _ ⟨⟩; exact hfits)

theorem InHand.fits (h : relay.InHand queue schema original phase) (hp : phase.passage? = some passage) :
    Fits queue schema original relay.underway relay.scene passage := by
  cases phase <;> cases hp <;> exact h passage rfl

/-- Behind a passage the worker takes the file off only if nothing more was found in it. -/
theorem inHand_next (hposition : relay.scene.position? = some (passage.file, passage.stop))
    (hspent : passage.finishable = true →
      Spent queue original relay.underway relay.scene.directory passage.file passage.stop) :
    relay.InHand queue schema original passage.next := by
  unfold Passage.next
  split
  case isTrue hfinishable => exact ⟨passage.stop, hposition, hspent hfinishable⟩
  case isFalse => split <;> exact inHand_of_free trivial

theorem inHand_afterShipping (hfits : Fits queue schema original relay.underway relay.scene passage)
    (hacknowledged : passage.shipment.entries = [] ∨ passage ∈ relay.acknowledged) :
    relay.InHand queue schema original passage.afterShipping := by
  unfold Passage.afterShipping
  split
  case isTrue => exact ⟨hfits, hacknowledged⟩
  case isFalse hstuck =>
    -- Without progress the queue already stands behind the passage.
    obtain ⟨content, read, -, hread, -⟩ := hfits.read
    have hle := hread.le
    have hsame : passage.start = passage.stop := by
      rw [Passage.madeProgress, decide_eq_true_iff] at hstuck
      omega
    exact inHand_next (hsame ▸ hfits.position) hfits.spent

/-- Where no passage is in hand, none is underway that was not before. -/
theorem hold_of_none (hnone : relay.turn.worker.phase.passage? = none) : relay.hold = relay := by
  unfold hold
  rw [hnone, Option.toList_none, List.append_nil]

namespace Orderly

variable (h : Orderly queue schema original relay)

include h

/-- A passage in hand is underway from then on. -/
theorem drawn_of_fits (hfits : Fits queue schema original relay.underway relay.scene passage) :
    Drawn queue schema relay.scene.directory passage ∧ relay.Begun passage := by
  obtain ⟨content, read, hcontent, hread, hentries⟩ := hfits.read
  obtain ⟨before, hbefore⟩ := h.reached _ _ content (.inr hfits.position) hcontent
  exact ⟨⟨content, before, read, hcontent, hbefore, hread, hentries⟩,
    passage.start, .inr hfits.position, Nat.le_refl _⟩

theorem spent_hold {place : LogPlace} (hplace : place ∈ relay.finished) :
    Spent queue original relay.hold.underway relay.scene.directory place.file place.offset := by
  have hspent := h.spent place hplace
  unfold Relay.hold
  cases hpassage : relay.turn.worker.phase.passage? with
  | none => simpa using hspent
  | some passage =>
    refine hspent.hold fun hfile ↦ absurd (mem_done.mpr ⟨place.offset, ?_⟩)
      (h.not_mem_done (h.inHand.fits hpassage).position)
    rw [hfile]
    exact hplace

theorem inHand_hold : relay.hold.InHand queue schema original relay.turn.worker.phase := by
  cases hpassage : relay.turn.worker.phase.passage? with
  | none =>
    rw [hold_of_none hpassage]
    exact h.inHand
  | some passage =>
    apply inHand_of_passage hpassage
    unfold Relay.hold
    rw [hpassage]
    exact (h.inHand.fits hpassage).hold

theorem hold : Orderly queue schema original relay.hold where
  fixed := h.fixed
  wellFormed := h.wellFormed
  fresh := h.fresh
  listed := h.listed
  ascending := h.ascending
  written := h.written
  reached := h.reached
  spent _ hplace := h.spent_hold hplace
  settled := h.settled
  drawn passage hpassage := by
    rcases List.mem_append.mp hpassage with hold | hnew
    · exact h.drawn passage hold
    · exact h.drawn_of_fits (h.inHand.fits (Option.mem_toList.mp hnew))
  arrived passage hpassage := List.mem_append_left _ (h.arrived passage hpassage)
  acknowledged := h.acknowledged
  inOrder := h.inOrder
  inHand := h.inHand_hold

theorem hear : Orderly queue schema original relay.hold.hear := by
  unfold Relay.hear
  split
  case h_1 => exact h.hold
  case h_2 passage hdelivers =>
    obtain ⟨shipment, -, hpassage⟩ := Option.bind_eq_some_iff.mp hdelivers
    exact h.hold.acknowledge (List.mem_append_right _ (Option.mem_toList.mpr hpassage))

/-- The same scene. -/
theorem setTurn {turn : Turn} (hscene : turn.scene = relay.scene)
    (hinHand : relay.InHand queue schema original turn.worker.phase) :
    Orderly queue schema original (relay.setTurn turn) := by
  have hnow : (relay.setTurn turn).scene = relay.scene := hscene
  have hreached : (relay.setTurn turn).Reached = relay.Reached := by
    unfold Reached
    rw [hnow]
    rfl
  have hfiles : (relay.setTurn turn).files = relay.files := by
    unfold files
    rw [hnow]
    rfl
  have hdue : (relay.setTurn turn).Due queue schema = relay.Due queue schema := by
    unfold Due
    rw [hnow, hfiles]
  constructor
  case fixed => rw [hnow]; exact h.fixed
  case wellFormed => rw [hnow]; exact h.wellFormed
  case fresh => rw [hnow]; exact h.fresh
  case listed => rw [hfiles]; exact h.listed
  case ascending => rw [hfiles]; exact h.ascending
  case written => rw [hnow]; exact h.written
  case reached => rw [hnow, hreached]; exact h.reached
  case spent => rw [hnow]; exact h.spent
  case settled =>
    unfold Passed
    rw [hreached, hdue]
    exact h.settled
  case drawn =>
    unfold Begun
    rw [hnow, hreached]
    exact h.drawn
  case arrived => exact h.arrived
  case acknowledged => exact h.acknowledged
  case inOrder => rw [hdue]; exact h.inOrder
  case inHand =>
    have hsame :
        (relay.setTurn turn).InHand queue schema original = relay.InHand queue schema original := by
      unfold InHand
      rw [hnow]
      rfl
    rw [hsame]
    exact hinHand

end Orderly

end InHand

end Relay

end Worker
end LogShipping
