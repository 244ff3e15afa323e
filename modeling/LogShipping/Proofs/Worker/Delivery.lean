import LogShipping.Proofs.Worker.Ledger

/-!
# Delivery in order, at least once

Whatever happens to the workers of a queue, the shipments whose end they stored hold, one after the
other, what the filter leaves of the records the queue has passed, and all of them that are not empty
were acknowledged before. Besides the ledger this rests on what a worker has in hand, which always fits
the queue's position: a passage begins there, and a file that is about to be taken off was read to its
end.
-/

namespace LogShipping.Worker

open Log QueueTables

/-! ## What a worker has in hand -/

/-- A passage begins at the queue's position, and its shipment holds what the filter leaves of its
records. -/
structure Fits (scene : Scene) (passage : Passage) : Prop where
  position : scene.position? = some (passage.file, passage.start)
  shipped : ∃ read, Holds scene.directory passage.file passage.start passage.stop read ∧
    passage.shipment.entries = read.filterMap (Entry.filter scene.schema)
  legible : Legible scene.directory passage.file passage.stop
  ends : passage.finishable = true →
    EndsAt scene.directory passage.file passage.stop ∧ scene.Complete passage.file

/-- A passage does not go back. -/
theorem Fits.start_le_stop {scene : Scene} {passage : Passage} (h : Fits scene passage) :
    passage.start ≤ passage.stop := by
  obtain ⟨read, ⟨content, -, hle, -⟩, -⟩ := h.shipped
  exact hle

/-- The shipments that are not empty were acknowledged, in this order. -/
def Acknowledged (shipments acknowledged : List Shipment) : Prop :=
  (shipments.filter fun shipment ↦ !shipment.entries.isEmpty).Sublist acknowledged

/-- What is true of a worker's phase. -/
def InHand (scene : Scene) (stored acknowledged : List Shipment) : Phase → Prop
  | .reading file offset hasNext =>
    scene.position? = some (file, offset) ∧
      (hasNext = true ∨ scene.key.isRecovered = true → scene.Complete file)
  | .dropping => scene.key.isRecovered = true ∧ scene.listed = []
  | .advancing passage =>
    Fits scene passage ∧ Acknowledged (stored ++ [passage.shipment]) acknowledged
  | .finishing file =>
    scene.Complete file ∧
      ∃ offset, scene.position? = some (file, offset) ∧ EndsAt scene.directory file offset
  | phase => ∀ passage, phase.passage? = some passage → Fits scene passage

/-- Every cell of the shipment has global scope. -/
def Confined (schema : Schema) (shipment : Shipment) : Prop :=
  ∀ entry ∈ shipment.entries, ∀ cell ∈ entry.cells, schema.isGlobal entry.table cell.family = true

section InHand

variable {scene after : Scene} {stored acknowledged : List Shipment} {phase : Phase}
  {passage : Passage}

theorem inHand_of_free (h : phase.Free) : InHand scene stored acknowledged phase := by
  cases phase <;> first | exact h.elim | (rintro passage ⟨⟩)

theorem inHand_of_passage (h : phase.passage? = some passage) (hfits : Fits scene passage) :
    InHand scene stored acknowledged phase := by
  cases phase <;> cases h <;> (rintro _ ⟨⟩; exact hfits)

theorem InHand.fits (h : InHand scene stored acknowledged phase) (hp : phase.passage? = some passage) :
    Fits scene passage := by
  cases phase <;> cases hp <;> exact h passage rfl

/-- Behind a passage the worker takes the file off only if it was read to its end. -/
theorem inHand_next (hposition : scene.position? = some (passage.file, passage.stop))
    (hends : passage.finishable = true →
      EndsAt scene.directory passage.file passage.stop ∧ scene.Complete passage.file) :
    InHand scene stored acknowledged passage.next := by
  unfold Passage.next
  split
  case isTrue hfinishable =>
    obtain ⟨hend, hcomplete⟩ := hends hfinishable
    exact ⟨hcomplete, passage.stop, hposition, hend⟩
  case isFalse => split <;> exact inHand_of_free trivial

theorem inHand_afterShipping (hfits : Fits scene passage)
    (hacknowledged : Acknowledged (stored ++ [passage.shipment]) acknowledged) :
    InHand scene stored acknowledged passage.afterShipping := by
  unfold Passage.afterShipping
  split
  case isTrue => exact ⟨hfits, hacknowledged⟩
  case isFalse hstuck =>
    -- Without progress the queue already stands behind the passage.
    have hle := hfits.start_le_stop
    have hsame : passage.start = passage.stop := by
      rw [Passage.madeProgress, decide_eq_true_iff] at hstuck
      omega
    exact inHand_next (hsame ▸ hfits.position) hfits.ends

/-- Shipments hold cells of global scope only. -/
theorem Fits.confined (h : Fits scene passage) : Confined scene.schema passage.shipment := by
  obtain ⟨read, -, hshipped⟩ := h.shipped
  intro entry hentry cell hcell
  rw [hshipped, List.mem_filterMap] at hentry
  obtain ⟨original, -, hkept⟩ := hentry
  unfold Entry.filter at hkept
  cases hcells : original.cells.filter fun cell ↦ scene.schema.isGlobal original.table cell.family with
  | nil =>
    rw [hcells] at hkept
    cases hkept
  | cons first rest =>
    rw [hcells] at hkept
    cases hkept
    have hmem : cell ∈ first :: rest := hcell
    rw [← hcells] at hmem
    exact (List.mem_filter.mp hmem).2

/-! ## What others do to it -/

theorem Elsewhere.position {finished : List FileRef} (helse : Elsewhere finished scene after)
    {file : FileRef} {offset : Nat} (h : scene.position? = some (file, offset)) :
    after.position? = some (file, offset) := by
  obtain ⟨hhead, hoffset⟩ := Scene.position?_eq_some_iff.mp h
  obtain ⟨added, hnow, -⟩ := helse.listed_append
  rw [Scene.position?_eq_some_iff, hnow, helse.offset_eq, List.head?_append, hhead, Option.some_or]
  exact ⟨rfl, hoffset⟩

theorem Elsewhere.complete {finished : List FileRef} (helse : Elsewhere finished scene after)
    {file : FileRef} (h : scene.Complete file) : after.Complete file := by
  obtain ⟨added, hnow, -⟩ := helse.listed_append
  obtain ⟨hmem, hclosed⟩ := h
  rw [Scene.Complete, hnow, helse.key]
  refine ⟨List.mem_append_left _ hmem, hclosed.imp_right fun hlast ↦ ?_⟩
  cases added with
  | nil => rwa [List.append_nil]
  | cons first rest =>
    rw [List.dropLast_append_of_ne_nil (List.cons_ne_nil first rest)]
    exact List.mem_append_left _ hmem

theorem Elsewhere.endsAt {finished : List FileRef} (helse : Elsewhere finished scene after)
    {file : FileRef} {offset : Nat} (hcomplete : scene.Complete file)
    (h : EndsAt scene.directory file offset) : EndsAt after.directory file offset := by
  have hstays : content? after.directory file = content? scene.directory file :=
    helse.closed file (.inr hcomplete)
  rw [EndsAt, hstays]
  exact h

theorem Elsewhere.fits {finished : List FileRef} (helse : Elsewhere finished scene after)
    (h : Fits scene passage) : Fits after passage := by
  have hgrown : Grows scene.directory after.directory passage.file :=
    helse.grown _ (List.mem_of_head? (Scene.position?_eq_some_iff.mp h.position).1)
  constructor
  case position => exact helse.position h.position
  case shipped =>
    obtain ⟨read, hread, hshipped⟩ := h.shipped
    exact ⟨read, hgrown.holds hread, by rw [helse.schema, hshipped]⟩
  case legible => exact hgrown.legible h.legible
  case ends =>
    intro hfinishable
    obtain ⟨hends, hcomplete⟩ := h.ends hfinishable
    exact ⟨helse.endsAt hcomplete hends, helse.complete hcomplete⟩

/-- Nothing that others do takes from a worker what it has in hand. -/
theorem Elsewhere.inHand {finished : List FileRef} (helse : Elsewhere finished scene after)
    (h : InHand scene stored acknowledged phase) : InHand after stored acknowledged phase := by
  cases phase with
  | reading file offset hasNext =>
    obtain ⟨hposition, hnext⟩ := h
    exact ⟨helse.position hposition, fun hclosed ↦ helse.complete (hnext (helse.key ▸ hclosed))⟩
  | dropping =>
    obtain ⟨hrecovered, hempty⟩ := h
    obtain ⟨added, hnow, hnone, -⟩ := helse.listed_append
    refine ⟨helse.key ▸ hrecovered, ?_⟩
    rw [hnow, hnone hrecovered, hempty]
    rfl
  | advancing passage => exact ⟨helse.fits h.1, h.2⟩
  | finishing file =>
    obtain ⟨hcomplete, offset, hposition, hends⟩ := h
    exact ⟨helse.complete hcomplete, offset, helse.position hposition, helse.endsAt hcomplete hends⟩
  | _ => exact fun passage hp ↦ helse.fits (h passage hp)

end InHand

/-! ## Faithful journals -/

/-- The ledger is in order, the shipments stored were acknowledged, those sent are confined to cells of
global scope, and what the worker has in hand fits. -/
structure Faithful (files : List FileRef) (start : Nat) (schema : Schema) (journal : Journal) : Prop where
  fixed : journal.scene.schema = schema
  ledger : Ledger files start journal.finished journal.stored journal.scene
  acknowledged : Acknowledged journal.stored journal.acknowledged
  confined : ∀ shipment ∈ journal.sent, Confined schema shipment
  inHand : InHand journal.scene journal.stored journal.acknowledged journal.turn.worker.phase

theorem Acknowledged.append_right {shipments acknowledged : List Shipment}
    (h : Acknowledged shipments acknowledged) (more : List Shipment) :
    Acknowledged shipments (acknowledged ++ more) :=
  List.Sublist.trans h (List.sublist_append_left acknowledged more)

/-- One more shipment is acknowledged before it is stored. -/
theorem Acknowledged.append {shipments acknowledged : List Shipment}
    (h : Acknowledged shipments acknowledged) (shipment : Shipment) :
    Acknowledged (shipments ++ [shipment]) (acknowledged ++ [shipment]) := by
  unfold Acknowledged
  rw [List.filter_append]
  exact List.Sublist.append h List.filter_sublist

/-- A shipment without entries need not be acknowledged. -/
theorem Acknowledged.append_empty {shipments acknowledged : List Shipment}
    (h : Acknowledged shipments acknowledged) {shipment : Shipment} (hempty : shipment.entries = []) :
    Acknowledged (shipments ++ [shipment]) acknowledged := by
  have hnone : [shipment].filter (fun shipment ↦ !shipment.entries.isEmpty) = [] := by
    simp [hempty]
  unfold Acknowledged
  rw [List.filter_append, hnone, List.append_nil]
  exact h

namespace Phase

/-- The next step neither stores a position nor takes a file off. -/
def Quiet : Phase → Prop
  | advancing _ | finishing _ => False
  | _ => True

theorem quiet_of_free {phase : Phase} (h : phase.Free) : phase.Quiet := by
  cases phase <;> first | exact h.elim | trivial

theorem quiet_of_passage {phase : Phase} {passage : Passage} (h : phase.passage? = some passage) :
    phase.Quiet := by
  cases phase <;> first | cases h; done | trivial

end Phase

theorem Turn.quiet (turn : Turn) (h : turn.worker.phase.Quiet) :
    turn.stores? = none ∧ turn.finishes? = none := by
  unfold Turn.stores? Turn.finishes?
  cases hphase : turn.worker.phase with
  | advancing passage => rw [hphase] at h; exact h.elim
  | finishing file => rw [hphase] at h; exact h.elim
  | _ => exact ⟨rfl, rfl⟩

namespace Faithful

variable {files : List FileRef} {start : Nat} {schema : Schema} {journal : Journal}

theorem confined_work (h : Faithful files start schema journal) :
    ∀ shipment ∈ journal.work.sent, Confined schema shipment := by
  intro shipment hsent
  rcases List.mem_append.mp hsent with hold | hnew
  · exact h.confined shipment hold
  · rw [Option.mem_toList] at hnew
    unfold Turn.sends? at hnew
    split at hnew
    case h_2 => cases hnew
    case h_1 passage hphase =>
      split at hnew
      case isTrue => cases hnew
      case isFalse =>
        cases hnew
        have hp : journal.turn.worker.phase.passage? = some passage := by
          rw [hphase]
          rfl
        have hfits := h.inHand.fits hp
        exact h.fixed ▸ hfits.confined

/-- A step that leaves the scene alone and stores nothing. -/
theorem work_of_quiet (h : Faithful files start schema journal)
    (hscene : (step journal.turn).scene = journal.scene)
    (hstores : journal.turn.stores? = none) (hfinishes : journal.turn.finishes? = none)
    (hinHand : InHand journal.scene journal.stored
      (journal.acknowledged ++ journal.turn.acknowledges?.toList) (step journal.turn).worker.phase) :
    Faithful files start schema journal.work := by
  have hnow : journal.work.scene = journal.scene := hscene
  have hstored : journal.work.stored = journal.stored := by
    rw [Journal.work, hstores]
    exact List.append_nil _
  have hfinished : journal.work.finished = journal.finished := by
    rw [Journal.work, hfinishes]
    exact List.append_nil _
  constructor
  case fixed => rw [hnow, h.fixed]
  case ledger =>
    rw [hnow, hstored, hfinished]
    exact h.ledger
  case acknowledged =>
    rw [hstored]
    exact h.acknowledged.append_right _
  case confined => exact h.confined_work
  case inHand =>
    rw [hnow, hstored]
    exact hinHand

theorem work_of_idles (h : Faithful files start schema journal)
    (hidles : journal.turn.Idles (step journal.turn))
    (hstores : journal.turn.stores? = none) (hfinishes : journal.turn.finishes? = none) :
    Faithful files start schema journal.work :=
  h.work_of_quiet hidles.1 hstores hfinishes (inHand_of_free hidles.2)

theorem work_of_passage (h : Faithful files start schema journal) {passage : Passage}
    (hp : journal.turn.worker.phase.passage? = some passage) :
    Faithful files start schema journal.work := by
  have hfits := h.inHand.fits hp
  obtain ⟨hstores, hfinishes⟩ := journal.turn.quiet (Phase.quiet_of_passage hp)
  rcases Turn.step_of_passage hp with ⟨hscene, hkept | hfree⟩ | ⟨hanswer, hscene, hafter⟩
  · exact h.work_of_quiet hscene hstores hfinishes (inHand_of_passage hkept hfits)
  · exact h.work_of_quiet hscene hstores hfinishes (inHand_of_free hfree)
  · apply h.work_of_quiet hscene hstores hfinishes
    rw [hanswer, hafter]
    exact inHand_afterShipping hfits (h.acknowledged.append passage.shipment)

theorem work_of_loading (h : Faithful files start schema journal)
    (hphase : journal.turn.worker.phase = .loading) : Faithful files start schema journal.work := by
  have hstep : step journal.turn = journal.turn.load := Turn.step_loading hphase
  obtain ⟨hstores, hfinishes⟩ := journal.turn.quiet (by rw [hphase]; trivial)
  rcases journal.turn.load_cases with hidles | ⟨queue, hqueue, hscene, hway⟩
  · exact h.work_of_idles (hstep ▸ hidles) hstores hfinishes
  · obtain ⟨offset, hoffset, rfl⟩ := get?_eq_some_iff.mp hqueue
    apply h.work_of_quiet (hstep ▸ hscene) hstores hfinishes
    rw [hstep]
    rcases hway with ⟨hempty, hrecovered, hloaded⟩ | ⟨file, hhead, hloaded⟩
    · rw [hloaded]
      exact ⟨hrecovered, List.head?_eq_none_iff.mp hempty⟩
    · rw [hloaded]
      have hfirst : journal.scene.listed.head? = some file := hhead
      refine ⟨Scene.position?_eq_some_iff.mpr ⟨hfirst, hoffset⟩, fun hclosed ↦ ?_⟩
      obtain ⟨later, hlisted⟩ := List.head?_eq_some_iff.mp hfirst
      refine ⟨List.mem_of_head? hfirst, ?_⟩
      rcases hclosed with hnext | hrecovered
      · -- Another file is listed behind the first one.
        refine .inr ?_
        have hlength : 1 < journal.scene.listed.length := of_decide_eq_true hnext
        rw [hlisted] at hlength ⊢
        cases later with
        | nil => exact absurd hlength (Nat.lt_irrefl 1)
        | cons next rest => exact List.mem_cons_self
      · exact .inl hrecovered

theorem work_of_reading (h : Faithful files start schema journal) {file : FileRef} {offset : Nat}
    {hasNext : Bool} (hphase : journal.turn.worker.phase = .reading file offset hasNext) :
    Faithful files start schema journal.work := by
  have hstep : step journal.turn = journal.turn.read file offset hasNext := Turn.step_reading hphase
  obtain ⟨hstores, hfinishes⟩ := journal.turn.quiet (by rw [hphase]; trivial)
  have hinHand := h.inHand
  rw [hphase] at hinHand
  obtain ⟨hposition, hclosed⟩ := hinHand
  obtain ⟨hhead, hoffset⟩ := Scene.position?_eq_some_iff.mp hposition
  obtain ⟨content, entries, hcontent, hle, hrecords⟩ := (h.ledger.whole offset hoffset).1 file hhead
  rcases Turn.read_cases offset hasNext hcontent with hidles | ⟨batch, htaken, hread⟩
  · exact h.work_of_idles (hstep ▸ hidles) hstores hfinishes
  · obtain ⟨hstart, read, rest, hspan, hrest, hentries, hexhausted⟩ :=
      Batch.take_reads rfl hle hrecords htaken
    obtain ⟨hscene, passage, hshipment, rfl, hpstart, hpstop, hfinishable, hway⟩ :=
      journal.turn.takeBatch_cases file (journal.turn.activeLength? file).isNone hasNext batch
    have hstarts : passage.start = offset := hpstart.trans hstart
    have hfits : Fits journal.scene passage := by
      constructor
      case position => rw [hposition, hstarts]
      case shipped =>
        refine ⟨read, ⟨content, hcontent, by rwa [hpstart, hpstop]⟩, ?_⟩
        rw [hshipment, hentries]
        rfl
      case legible => exact ⟨content, rest, hcontent, by rw [hpstop]; exact hspan.2.1, by rwa [hpstop]⟩
      case ends =>
        intro hdone
        obtain ⟨hend, hunlimited, hnext⟩ := hfinishable hdone
        refine ⟨⟨content, hcontent, ?_⟩, hclosed hnext⟩
        have hnone := hexhausted (Option.isNone_iff_eq_none.mp hunlimited) hend
        rw [hnone, records_nil_iff, List.drop_eq_nil_iff] at hrest
        have := hspan.2.1
        omega
    rw [← hread, ← hstep] at hscene hway
    apply h.work_of_quiet hscene hstores hfinishes
    rcases hway with hshipping | ⟨hempty, hafter⟩
    · rw [hshipping]
      exact inHand_of_passage rfl hfits
    · rw [hafter]
      exact inHand_afterShipping hfits
        ((h.acknowledged.append_empty (hshipment.trans hempty)).append_right _)

theorem work_of_dropping (h : Faithful files start schema journal)
    (hphase : journal.turn.worker.phase = .dropping) : Faithful files start schema journal.work := by
  have hstep : step journal.turn = journal.turn.drop := Turn.step_dropping hphase
  obtain ⟨hstores, hfinishes⟩ := journal.turn.quiet (by rw [hphase]; trivial)
  have hinHand := h.inHand
  rw [hphase] at hinHand
  rcases journal.turn.drop_cases with ⟨hscene, hfree⟩ | hidles
  · have hnow : journal.work.scene =
        journal.scene.withQueues (journal.scene.database.queues.remove journal.scene.key) := by
      rw [← hstep] at hscene
      exact hscene
    constructor
    case fixed => rw [hnow]; exact h.fixed
    case ledger =>
      rw [hnow, Journal.work, hstores, hfinishes]
      simp only [Option.toList_none, List.append_nil]
      exact h.ledger.drop hinHand.2
    case acknowledged =>
      rw [Journal.work, hstores]
      simp only [Option.toList_none, List.append_nil]
      exact h.acknowledged.append_right _
    case confined => exact h.confined_work
    case inHand =>
      rw [← hstep] at hfree
      exact inHand_of_free hfree
  · exact h.work_of_idles (hstep ▸ hidles) hstores hfinishes

theorem work_of_advancing (h : Faithful files start schema journal) {passage : Passage}
    (hphase : journal.turn.worker.phase = .advancing passage) :
    Faithful files start schema journal.work := by
  have hstep : step journal.turn = journal.turn.advance passage := Turn.step_advancing hphase
  have hfinishes : journal.turn.finishes? = none := by rw [Turn.finishes?, hphase]
  have hinHand := h.inHand
  rw [hphase] at hinHand
  obtain ⟨hfits, hacknowledged⟩ := hinHand
  rcases Turn.advance_cases hphase with
    ⟨queues, hadvance, hstores, hscene, hafter⟩ | ⟨hstores, hidles, -⟩
  · obtain ⟨read, hread, hshipped⟩ := hfits.shipped
    obtain ⟨hledger, hposition, hlisted⟩ :=
      h.ledger.advance hfits.position hread hshipped hfits.legible hadvance
    have hnow : journal.work.scene = journal.scene.withQueues queues := by
      rw [← hstep] at hscene
      exact hscene
    have hstored : journal.work.stored = journal.stored ++ [passage.shipment] := by
      rw [Journal.work, hstores]
      rfl
    constructor
    case fixed => rw [hnow]; exact h.fixed
    case ledger =>
      rw [hnow, hstored, Journal.work, hfinishes]
      simp only [Option.toList_none, List.append_nil]
      exact hledger
    case acknowledged =>
      rw [hstored]
      exact hacknowledged.append_right _
    case confined => exact h.confined_work
    case inHand =>
      rw [hnow]
      show InHand _ _ _ (step journal.turn).worker.phase
      rw [hstep, hafter]
      apply inHand_next hposition
      intro hfinishable
      obtain ⟨hends, hcomplete⟩ := hfits.ends hfinishable
      exact ⟨hends, by rwa [Scene.Complete, hlisted]⟩
  · exact h.work_of_idles (hstep ▸ hidles) hstores hfinishes

theorem work_of_finishing (h : Faithful files start schema journal) {file : FileRef}
    (hphase : journal.turn.worker.phase = .finishing file) :
    Faithful files start schema journal.work := by
  have hstep : step journal.turn = journal.turn.finish file := Turn.step_finishing hphase
  have hstores : journal.turn.stores? = none := by rw [Turn.stores?, hphase]
  have hinHand := h.inHand
  rw [hphase] at hinHand
  obtain ⟨hcomplete, offset, hposition, hends⟩ := hinHand
  rcases Turn.finish_cases hphase with
    ⟨queues, hfinish, hfinishes, hscene, hafter⟩ | ⟨hfinishes, hidles, -⟩
  · have hnow : journal.work.scene = journal.scene.withQueues queues := by
      rw [← hstep] at hscene
      exact hscene
    constructor
    case fixed => rw [hnow]; exact h.fixed
    case ledger =>
      rw [hnow, Journal.work, hstores, hfinishes]
      simp only [Option.toList_none, Option.toList_some, List.append_nil]
      exact h.ledger.finish hposition hends hcomplete hfinish
    case acknowledged =>
      rw [Journal.work, hstores]
      simp only [Option.toList_none, List.append_nil]
      exact h.acknowledged.append_right _
    case confined => exact h.confined_work
    case inHand =>
      show InHand _ _ _ (step journal.turn).worker.phase
      rw [hstep, hafter]
      exact inHand_of_free trivial
  · exact h.work_of_idles (hstep ▸ hidles) hstores hfinishes

/-- Every step of a worker keeps the journal faithful. -/
theorem work (h : Faithful files start schema journal) : Faithful files start schema journal.work := by
  have hfree (hfree : journal.turn.worker.phase.Free) (hloading : journal.turn.worker.phase ≠ .loading) :
      Faithful files start schema journal.work := by
    obtain ⟨hstores, hfinishes⟩ := journal.turn.quiet (Phase.quiet_of_free hfree)
    exact h.work_of_idles (Turn.step_of_free hfree hloading) hstores hfinishes
  cases hphase : journal.turn.worker.phase with
  | ready => exact hfree (hphase ▸ trivial) (by rw [hphase]; rintro ⟨⟩)
  | gated => exact hfree (hphase ▸ trivial) (by rw [hphase]; rintro ⟨⟩)
  | loading => exact h.work_of_loading hphase
  | reading file offset hasNext => exact h.work_of_reading hphase
  | dropping => exact h.work_of_dropping hphase
  | shipping passage => exact h.work_of_passage (congrArg Phase.passage? hphase)
  | awaitingTokens passage count => exact h.work_of_passage (congrArg Phase.passage? hphase)
  | awaitingPlace passage => exact h.work_of_passage (congrArg Phase.passage? hphase)
  | calling passage => exact h.work_of_passage (congrArg Phase.passage? hphase)
  | inFlight passage number deadline => exact h.work_of_passage (congrArg Phase.passage? hphase)
  | backingOff passage wake => exact h.work_of_passage (congrArg Phase.passage? hphase)
  | advancing passage => exact h.work_of_advancing hphase
  | finishing file => exact h.work_of_finishing hphase
  | idle => exact hfree (hphase ▸ trivial) (by rw [hphase]; rintro ⟨⟩)
  | pausing wake => exact hfree (hphase ▸ trivial) (by rw [hphase]; rintro ⟨⟩)
  | stalled => exact hfree (hphase ▸ trivial) (by rw [hphase]; rintro ⟨⟩)
  | stopped => exact hfree (hphase ▸ trivial) (by rw [hphase]; rintro ⟨⟩)

/-- What happens to a worker keeps the journal faithful too. -/
theorem moves {next : Journal} (h : Faithful files start schema journal) (hmoves : journal.Moves next) :
    Faithful files start schema next := by
  cases hmoves with
  | work => exact h.work
  | dismiss => exact ⟨h.fixed, h.ledger, h.acknowledged, h.confined, h.inHand⟩
  | wake =>
    unfold Worker.wake
    split
    case isTrue => exact ⟨h.fixed, h.ledger, h.acknowledged, h.confined, inHand_of_free trivial⟩
    case isFalse => exact ⟨h.fixed, h.ledger, h.acknowledged, h.confined, h.inHand⟩
  | respawn facilities sink circuit gate =>
    exact ⟨h.fixed, h.ledger, h.acknowledged, h.confined, inHand_of_free trivial⟩
  | elsewhere world facilities helse =>
    exact ⟨helse.schema.trans h.fixed, h.ledger.elsewhere helse, h.acknowledged, h.confined,
      helse.inHand h.inHand⟩

theorem leads {next : Journal} (h : Faithful files start schema journal) (hleads : journal.Leads next) :
    Faithful files start schema next := by
  induction hleads with
  | refl => exact h
  | tail _ hmoves ih => exact ih.moves hmoves

end Faithful

/-! ## Delivery -/

/-- What was delivered of a queue, given the entries it has passed. -/
structure Delivered (queue : Queue) (schema : Schema) (journal : Journal) (passed : List Entry) : Prop where
  /-- No file is left out, and only files that were listed later come behind. -/
  listed : ∃ added, journal.finished ++ journal.scene.listed = queue.files ++ added
  ascending : (journal.finished ++ journal.scene.listed).Pairwise fun x y ↦ rank x.seq < rank y.seq
  /-- The entries lie between the first position and the present one. -/
  between : Passed journal.scene.directory queue.offset journal.finished journal.scene.position? passed
  /-- The stored shipments hold what the filter leaves of them, each entry once and in their order. -/
  stored : journal.stored.flatMap (·.entries) = passed.filterMap (Entry.filter schema)
  /-- Every stored shipment with entries was acknowledged. -/
  acknowledged : Acknowledged journal.stored journal.acknowledged
  /-- Every passed entry with a cell of global scope reached the peer. -/
  received : ∀ entry ∈ passed, (∃ cell ∈ entry.cells, schema.isGlobal entry.table cell.family = true) →
    ∃ shipment ∈ journal.acknowledged, ∃ kept ∈ shipment.entries, entry.filter schema = some kept
  /-- No cell of another scope was sent. -/
  confined : ∀ shipment ∈ journal.sent, Confined schema shipment

theorem filter_isSome {schema : Schema} {entry : Entry}
    (h : ∃ cell ∈ entry.cells, schema.isGlobal entry.table cell.family = true) :
    ∃ kept, entry.filter schema = some kept := by
  obtain ⟨cell, hcell, hglobal⟩ := h
  have hmem : cell ∈ entry.cells.filter fun cell ↦ schema.isGlobal entry.table cell.family :=
    List.mem_filter.mpr ⟨hcell, hglobal⟩
  unfold Entry.filter
  cases hcells : entry.cells.filter fun cell ↦ schema.isGlobal entry.table cell.family with
  | nil =>
    rw [hcells] at hmem
    cases hmem
  | cons first rest => exact ⟨_, rfl⟩

theorem Faithful.delivered {queue : Queue} {schema : Schema} {journal : Journal}
    (h : Faithful queue.files queue.offset schema journal) :
    ∃ passed, Delivered queue schema journal passed := by
  obtain ⟨passed, hpassed, hstored⟩ := h.ledger.passed
  rw [h.fixed] at hstored
  refine ⟨passed, h.ledger.listed, h.ledger.ascending, hpassed, hstored, h.acknowledged, ?_, h.confined⟩
  intro entry hentry hglobal
  obtain ⟨kept, hkept⟩ := filter_isSome hglobal
  have hmem : kept ∈ journal.stored.flatMap (·.entries) := by
    rw [hstored, List.mem_filterMap]
    exact ⟨entry, hentry, hkept⟩
  obtain ⟨shipment, hshipment, hin⟩ := List.mem_flatMap.mp hmem
  have hfull : shipment ∈ journal.stored.filter fun shipment ↦ !shipment.entries.isEmpty := by
    refine List.mem_filter.mpr ⟨hshipment, ?_⟩
    rw [List.isEmpty_eq_false_iff_exists_mem.mpr ⟨kept, hin⟩]
    rfl
  exact ⟨shipment, h.acknowledged.subset hfull, kept, hin, hkept⟩

/-- A journal that is opened on a queue of whole records is faithful. -/
theorem faithful_opening {world : World} {facilities : Facilities} {worker : Worker} {queue : Queue}
    (hfree : worker.phase.Free) (hreach : world.database.queues.Reachable)
    (hqueue : world.database.queues.get? worker.key = some queue)
    (hwhole : Whole world.directory queue.files queue.offset) :
    Faithful queue.files queue.offset world.schema (.opening ⟨world, facilities, worker⟩) := by
  obtain ⟨offset, hoffset, rfl⟩ := get?_eq_some_iff.mp hqueue
  have wf := hreach.wellFormed
  have hempty (hnone : world.database.queues.filesOf worker.key = []) : offset = 0 := by
    apply hreach.fresh worker.key offset hoffset
    intro seq
    rw [← Bool.not_eq_true, lists_iff_mem_filesOf, hnone]
    rintro ⟨file, hfile, -⟩
    cases hfile
  constructor
  case fixed => rfl
  case acknowledged => exact List.Sublist.refl []
  case confined =>
    rintro shipment hnone
    cases hnone
  case inHand => exact inHand_of_free hfree
  case ledger =>
    constructor
    case wellFormed => exact wf
    case whole =>
      intro other hother
      obtain rfl : offset = other := Option.some.inj (hoffset.symm.trans hother)
      exact hwhole
    case fresh =>
      intro other hother hnone
      obtain rfl : offset = other := Option.some.inj (hoffset.symm.trans hother)
      exact hempty hnone
    case listed => exact ⟨[], (List.append_nil _).symm⟩
    case ascending => exact wf.pairwise_filesOf_lt worker.key
    case unfinished => exact fun _ ↦ .inr rfl
    case passed =>
      refine ⟨[], ?_, rfl⟩
      cases hfiles : world.database.queues.filesOf worker.key with
      | nil =>
        have hnone : (Turn.scene ⟨world, facilities, worker⟩).position? = none :=
          Scene.position?_eq_none_of_empty hfiles
        show Passed world.directory offset [] (Turn.scene ⟨world, facilities, worker⟩).position? []
        rw [hnone, hempty hfiles]
        exact .nothing
      | cons head later =>
        have hhead : (world.database.queues.filesOf worker.key).head? = some head := by
          rw [hfiles]
          rfl
        have hposition : (Turn.scene ⟨world, facilities, worker⟩).position? = some (head, offset) :=
          Scene.position?_eq_some_iff.mpr ⟨hhead, hoffset⟩
        show Passed world.directory offset [] (Turn.scene ⟨world, facilities, worker⟩).position? []
        rw [hposition]
        exact .within (hwhole.1 head hhead).holds_nil

/-- Every run on a queue of whole records delivers them in order, at least once: what the filter leaves
of the entries passed is what was stored, and all of it was acknowledged. -/
theorem delivered_of_leads {world : World} {facilities : Facilities} {key : QueueKey} {sink : Sink}
    {circuit : Nat} {gate : Gate} {queue : Queue} {journal : Journal}
    (hreach : world.database.queues.Reachable)
    (hqueue : world.database.queues.get? key = some queue)
    (hwhole : Whole world.directory queue.files queue.offset)
    (hleads : (Journal.opening ⟨world, facilities, .create key sink circuit gate⟩).Leads journal) :
    ∃ passed, Delivered queue world.schema journal passed := by
  have hopening : Faithful queue.files queue.offset world.schema
      (.opening ⟨world, facilities, .create key sink circuit gate⟩) := by
    refine faithful_opening ?_ hreach hqueue hwhole
    trivial
  exact (hopening.leads hleads).delivered

theorem Journal.leads_repeat (journal : Journal) (steps : Nat) :
    journal.Leads (Nat.repeat Journal.work steps journal) := by
  induction steps with
  | zero => exact .refl
  | succ steps ih => exact .tail ih (.work _)

namespace Sample

/-- The queue that node b recovered from node a, with one file. -/
def key : QueueKey := ⟨"b", "p", "a"⟩

def entry : Entry := ⟨"t", 1, 0, [⟨[], "f", [], 0, .put, []⟩]⟩

/-- The entry as it is stored, given as an array. -/
def record : Bytes :=
  [34, 0, 0, 0, 121, 131, 250, 64, 91, 34, 116, 34, 44, 49, 44, 48, 44, 91, 91, 91, 93, 44, 34, 102,
    34, 44, 91, 93, 44, 48, 44, 34, 112, 117, 116, 34, 44, 91, 93, 93, 93, 93]

def world : World :=
  { World.create (.ofNames ["f"]) with
    database := { Database.empty with queues := .run .empty [.create key (some (⟨1, "w"⟩, 0))] }
    registry := ⟨[⟨⟨"p", "mem://p", true⟩, 0⟩], true, 1⟩
    directory := ⟨[("w", record)]⟩ }

def facilities : Facilities := ⟨"b", .standard, none, ⟨1, [], []⟩, .create ⟨5, 1, 10⟩⟩

def shipment : Shipment := ⟨"a", "p", [entry]⟩

/-- The peer has acknowledged the shipment, and the worker is about to move the position. -/
def interrupted : Journal :=
  Nat.repeat Journal.work 7
    (.opening ⟨world, facilities, .create key (.remote "p") 0 ⟨"p", 0⟩⟩)

/-- The worker was lost there, and another one has done the work over. -/
def resumed : Journal :=
  Nat.repeat Journal.work 12
    (interrupted.setTurn
      ⟨interrupted.turn.world, facilities,
        .create interrupted.turn.worker.key (.remote "p") 0 ⟨"p", 0⟩⟩)

end Sample

/-- A worker that is lost between the acknowledgement and the move of the position makes the peer
receive the records twice; they are stored once. -/
theorem delivered_after_loss :
    Sample.resumed.acknowledged = [Sample.shipment, Sample.shipment] ∧
      Sample.resumed.stored = [Sample.shipment] ∧ Sample.resumed.finished = [⟨1, "w"⟩] ∧
      ∃ passed, Delivered ⟨Sample.key, [⟨1, "w"⟩], 0⟩ (.ofNames ["f"]) Sample.resumed passed := by
  refine ⟨by decide +kernel, by decide +kernel, by decide +kernel, ?_⟩
  have hrecords : Records Sample.record [Sample.entry] := by
    refine records_cons_iff.mpr ⟨Sample.record.drop 8, 42, by decide +kernel, rfl, ?_⟩
    exact records_nil_iff.mpr rfl
  have hwhole : Whole Sample.world.directory [⟨1, "w"⟩] 0 := by
    constructor
    · rintro _ ⟨⟩
      exact ⟨Sample.record, [Sample.entry], by decide +kernel, by decide, hrecords⟩
    · rintro file ⟨⟩
  have hleads : (Journal.opening ⟨Sample.world, Sample.facilities,
      .create Sample.key (.remote "p") 0 ⟨"p", 0⟩⟩).Leads Sample.resumed :=
    ((Journal.leads_repeat _ 7).tail (.respawn Sample.interrupted _ _ _ _)).trans
      (Journal.leads_repeat _ 12)
  exact delivered_of_leads ⟨_, rfl⟩ (by decide +kernel) hwhole hleads

end LogShipping.Worker
