import LogShipping.Proofs.Queue.Position
import LogShipping.Proofs.Queue.Transfer
import LogShipping.Proofs.Worker.Transitions

/-!
# Taking a queue back while its worker is at work

A worker loads its queue, reads from the first file, and once the passage is shipped calls the store: it
moves the offset, and takes the file off if it was read to its end. Other calls may come in between, and
one of them may fold a recovered queue into the worker's. Whatever was pending before and was not read by
the worker is then still pending afterwards, with one exception. Moving the offset is refused if the
merge has lowered it, but taking the file off looks only at the number of the file. If the recovered queue
stands lower in that same file and the merge comes right before that call, the octets in between are lost.
-/

namespace LogShipping

open QueueTables

/-! ## Calls one after the other -/

namespace QueueTables

/-- Makes one call after the other, until one is refused. -/
def attempt (tables : QueueTables) : List Operation → QueueTables
  | [] => tables
  | operation :: rest =>
    match tables.perform operation with
    | .ok after => after.attempt rest
    | .error _ => tables

variable {tables after : QueueTables}

theorem attempt_of_ok (operation : Operation) (rest : List Operation)
    (h : tables.perform operation = .ok after) :
    tables.attempt (operation :: rest) = after.attempt rest := by
  rw [attempt, h]

theorem attempt_of_error (operation : Operation) (rest : List Operation) {error : Error}
    (h : tables.perform operation = .error error) : tables.attempt (operation :: rest) = tables := by
  rw [attempt, h]

theorem WellFormed.attempt (wf : tables.WellFormed) (operations : List Operation) :
    (tables.attempt operations).WellFormed := by
  induction operations generalizing tables with
  | nil => exact wf
  | cons operation rest ih =>
    cases hperform : tables.perform operation with
    | ok after =>
      rw [attempt_of_ok operation rest hperform]
      exact ih (wf.perform operation hperform)
    | error error =>
      rw [attempt_of_error operation rest hperform]
      exact wf

/-- Moving offsets and taking files off makes no queue appear or disappear. -/
theorem isSome_offset?_attempt (key : QueueKey) {operations : List Operation}
    (h : ∀ operation ∈ operations, (∃ start target, operation = .advance key start target) ∨
      ∃ seq, operation = .finish key seq) (other : QueueKey) :
    ((tables.attempt operations).offset? other).isSome = (tables.offset? other).isSome := by
  induction operations generalizing tables with
  | nil => rfl
  | cons operation rest ih =>
    have hrest := fun later hlater ↦ h later (List.mem_cons_of_mem _ hlater)
    cases hperform : tables.perform operation with
    | error error => rw [attempt_of_error operation rest hperform]
    | ok after =>
      rw [attempt_of_ok operation rest hperform, ih hrest]
      rcases h operation List.mem_cons_self with ⟨start, target, rfl⟩ | ⟨seq, rfl⟩
      · obtain ⟨-, _, -, ⟨-, rfl⟩ | ⟨-, -, rfl⟩⟩ := advance_eq_ok_iff.mp hperform
        · rfl
        · rw [offset?_setOffset]
          split
          case isTrue hsame => rw [Option.isSome_map, hsame]
          case isFalse => rfl
      · obtain ⟨-, -, rfl⟩ := finish_eq_ok_iff.mp hperform
        rw [offset?_setOffset]
        split
        case isTrue hsame => rw [Option.isSome_map, offset?_removeFile, hsame]
        case isFalse => rfl

end QueueTables

/-- The calls to the store that follow once a passage has been shipped. -/
def Passage.calls (passage : Passage) (key : QueueKey) : List Operation :=
  (if passage.madeProgress then [.advance key passage.start passage.target] else []) ++
    if passage.finishable then [.finish key passage.file.seq] else []

namespace Worker

variable {turn : Turn}

/-- A worker about to take a file off makes that call, and has nothing in hand then. -/
theorem step_of_finishing {file : FileRef} (hphase : turn.worker.phase = .finishing file)
    (hup : turn.world.database.reachable = true) :
    (step turn).world.database.queues =
        turn.world.database.queues.attempt [.finish turn.worker.key file.seq] ∧
      (step turn).worker.phase.Free := by
  rw [Turn.step_finishing hphase]
  rcases Turn.finish_cases hphase with
    ⟨after, hfinish, -, hscene, hready⟩ | ⟨-, ⟨hscene, hfree⟩, hrefused⟩
  · rw [attempt_of_ok (.finish turn.worker.key file.seq) [] hfinish, hready]
    exact ⟨congrArg (·.database.queues) hscene, trivial⟩
  · obtain ⟨error, herror⟩ := hrefused hup
    rw [attempt_of_error (.finish turn.worker.key file.seq) [] herror]
    exact ⟨congrArg (·.database.queues) hscene, hfree⟩

/-- Behind a passage a worker takes the file off if it was read to its end, and then has nothing in
hand. -/
theorem step_of_next {passage : Passage} (hphase : turn.worker.phase = passage.next)
    (hup : turn.world.database.reachable = true) :
    (step turn).world.database.queues = turn.world.database.queues.attempt
        (if passage.finishable then [.finish turn.worker.key passage.file.seq] else []) ∧
      (step turn).worker.phase.Free := by
  unfold Passage.next at hphase
  split at hphase
  case isTrue hfinishable =>
    rw [if_pos hfinishable]
    exact step_of_finishing hphase hup
  case isFalse hopen =>
    rw [if_neg hopen]
    have hfree : turn.worker.phase.Free ∧ turn.worker.phase ≠ .loading := by
      rw [hphase]
      split
      case isTrue => exact ⟨trivial, Phase.noConfusion⟩
      case isFalse => exact ⟨trivial, Phase.noConfusion⟩
    obtain ⟨hscene, hstill⟩ := Turn.step_of_free hfree.1 hfree.2
    exact ⟨congrArg (·.database.queues) hscene, hstill⟩

/-- These are the calls that a worker makes once it has shipped a passage. -/
theorem step_step_of_shipped {passage : Passage} (hphase : turn.worker.phase = passage.afterShipping)
    (hup : turn.world.database.reachable = true) :
    (step (step turn)).world.database.queues =
      turn.world.database.queues.attempt (passage.calls turn.worker.key) := by
  unfold Passage.afterShipping at hphase
  unfold Passage.calls
  split at hphase
  case isTrue hprogress =>
    have hstep : step turn = turn.advance passage := Turn.step_advancing hphase
    rw [if_pos hprogress, List.singleton_append]
    rcases Turn.advance_cases hphase with
      ⟨after, hadvance, -, hscene, hnext⟩ | ⟨-, ⟨hscene, hfree⟩, hrefused⟩
    · rw [← hstep] at hscene hnext
      have hqueues : (step turn).world.database.queues = after :=
        congrArg (·.database.queues) hscene
      have hkey : (step turn).worker.key = turn.worker.key := congrArg Scene.key hscene
      have hstill : (step turn).world.database.reachable = true :=
        (congrArg (·.database.reachable) hscene).trans hup
      rw [attempt_of_ok (.advance turn.worker.key passage.start passage.target) _ hadvance,
        (step_of_next hnext hstill).1, hqueues, hkey]
    · obtain ⟨error, herror⟩ := hrefused hup
      rw [attempt_of_error (.advance turn.worker.key passage.start passage.target) _ herror]
      rw [← hstep] at hscene hfree
      calc (step (step turn)).world.database.queues
          = (step turn).world.database.queues :=
            congrArg (·.database.queues) (Turn.scene_step_of_free hfree)
        _ = turn.world.database.queues := congrArg (·.database.queues) hscene
  case isFalse hstuck =>
    obtain ⟨hqueues, hfree⟩ := step_of_next hphase hup
    rw [if_neg hstuck, List.nil_append, ← hqueues]
    exact congrArg (·.database.queues) (Turn.scene_step_of_free hfree)

end Worker

/-! ## A visit and a merge -/

/-- A worker's visit to its queue, and a queue that is handed to its owner meanwhile. -/
structure TakeBack where
  database : Database
  membership : Membership
  /-- The worker's queue. -/
  key : QueueKey
  /-- The queue that is handed over. -/
  source : QueueKey
  /-- What the worker reads. -/
  passage : Passage
  /-- The calls that the worker makes after it has loaded its queue. -/
  calls : List Operation
  /-- How many calls of the worker come first, the one that loads the queue among them. -/
  moment : Nat

namespace TakeBack

variable {race : TakeBack}

/-- The tables right before the queue is handed over. -/
def before (race : TakeBack) : QueueTables :=
  race.database.queues.attempt (race.calls.take (race.moment - 1))

def reply (race : TakeBack) : QueueStore.Reply QueueKey :=
  (QueueStore.transfer (race.database.withQueues race.before) race.membership race.source
    race.key.owner).1

/-- The tables right after it. -/
def merged (race : TakeBack) : QueueTables := race.reply.database.queues

/-- The tables at the end of the visit. -/
def after (race : TakeBack) : QueueTables := race.merged.attempt (race.calls.drop (race.moment - 1))

/-- The tables that the worker loads its queue from. -/
def loaded (race : TakeBack) : QueueTables :=
  if race.moment = 0 then race.merged else race.database.queues

/-- The queue is folded into the worker's, and the worker makes its calls as far as it gets. -/
structure Valid (race : TakeBack) : Prop where
  reachable : race.database.queues.Reachable
  there : (race.database.queues.offset? race.key).isSome = true
  distinct : race.source ≠ race.key
  answer : race.reply.answer = .ok race.key
  loaded : ∃ queue, race.loaded.get? race.key = some queue ∧
    queue.head? = some race.passage.file ∧ queue.offset = race.passage.start
  ordered : race.passage.start ≤ race.passage.stop
  calls : race.calls <+: race.passage.calls race.key

/-- The worker has read the octet at a position and had it acknowledged. -/
def Read (race : TakeBack) (position : LogPosition) : Prop :=
  race.calls ≠ [] ∧ position.seq = race.passage.file.seq ∧
    race.passage.start ≤ position.offset ∧ position.offset < race.passage.stop

/-- Of files of these lengths, everything pending before the merge that the worker has not read is
pending after the visit. -/
def Lossless (race : TakeBack) (length : UInt64 → Nat) : Prop :=
  ∀ position : LogPosition, position.offset < length position.seq →
    race.before.Pending race.source position ∨ race.before.Pending race.key position →
    ¬race.Read position → race.after.Pending race.key position

/-- The queue that is handed over stands in the worker's file before the octets that the worker has
read, and only the call that takes the file off is still to come. -/
def Overtaken (race : TakeBack) (length : UInt64 → Nat) : Prop :=
  0 < race.moment ∧
    race.calls.drop (race.moment - 1) = [.finish race.key race.passage.file.seq] ∧
    race.before.headSeq? race.source = some race.passage.file.seq ∧
    ∃ offset, race.before.offset? race.source = some offset ∧
      offset < race.passage.start ∧ offset < length race.passage.file.seq

namespace Valid

theorem wellFormed_before (h : race.Valid) : race.before.WellFormed :=
  h.reachable.wellFormed.attempt _

/-- The calls are those of the passage, up to some point. -/
theorem calls_cases (h : race.Valid) :
    race.calls = [] ∨
    race.calls = [.advance race.key race.passage.start race.passage.target] ∨
    (race.passage.finishable = true ∧
      (race.calls = [.finish race.key race.passage.file.seq] ∨
        race.calls = [.advance race.key race.passage.start race.passage.target,
          .finish race.key race.passage.file.seq])) := by
  have hcalls := h.calls
  unfold Passage.calls at hcalls
  split at hcalls
  case isTrue =>
    rw [List.singleton_append, List.prefix_cons_iff] at hcalls
    rcases hcalls with hnone | ⟨rest, hrest, hlater⟩
    · exact .inl hnone
    · split at hlater
      case isTrue hfinishable =>
        rw [List.prefix_cons_iff] at hlater
        rcases hlater with rfl | ⟨last, rfl, hlast⟩
        · exact .inr (.inl hrest)
        · rw [List.prefix_nil.mp hlast] at hrest
          exact .inr (.inr ⟨hfinishable, .inr hrest⟩)
      case isFalse =>
        rw [List.prefix_nil.mp hlater] at hrest
        exact .inr (.inl hrest)
  case isFalse =>
    rw [List.nil_append] at hcalls
    split at hcalls
    case isTrue hfinishable =>
      rw [List.prefix_cons_iff] at hcalls
      rcases hcalls with hnone | ⟨last, hlast, hend⟩
      · exact .inl hnone
      · rw [List.prefix_nil.mp hend] at hlast
        exact .inr (.inr ⟨hfinishable, .inl hlast⟩)
    case isFalse => exact .inl (List.prefix_nil.mp hcalls)

/-- The merge takes both queues as they stand before it. -/
theorem merge (h : race.Valid) :
    ∃ sourceOffset offset, race.before.offset? race.source = some sourceOffset ∧
      race.before.offset? race.key = some offset ∧
      race.merged = race.before.merge race.source sourceOffset race.key offset := by
  obtain ⟨hkey, hover⟩ := QueueStore.handOver_of_transfer h.answer
  obtain ⟨sourceOffset, hsource, hway⟩ := handOver_eq_ok_iff.mp hover
  rw [← hkey] at hway
  have hthere : (race.before.offset? race.key).isSome = true := by
    refine (isSome_offset?_attempt race.key (fun operation hoperation ↦ ?_) race.key).trans h.there
    have hmem := List.mem_of_mem_take hoperation
    rcases h.calls_cases with hcalls | hcalls | ⟨-, hcalls | hcalls⟩ <;> rw [hcalls] at hmem <;>
      simp only [List.mem_cons, List.not_mem_nil, or_false] at hmem
    · exact .inl ⟨_, _, hmem⟩
    · exact .inr ⟨_, hmem⟩
    · rcases hmem with hmem | hmem
      · exact .inl ⟨_, _, hmem⟩
      · exact .inr ⟨_, hmem⟩
  rcases hway with ⟨habsent, -⟩ | ⟨offset, hoffset, -, hmerged⟩
  · rw [show race.before.offset? race.key = none from habsent] at hthere
    cases hthere
  · exact ⟨sourceOffset, offset, hsource, hoffset, hmerged⟩

theorem wellFormed_merged (h : race.Valid) : race.merged.WellFormed := by
  obtain ⟨sourceOffset, offset, -, hoffset, hmerged⟩ := h.merge
  rw [hmerged]
  exact h.wellFormed_before.merge _ _ (by rw [hoffset]; rfl)

/-- The merge itself loses nothing. -/
theorem pending_merged (h : race.Valid) {position : LogPosition}
    (hpending : race.before.Pending race.source position ∨ race.before.Pending race.key position) :
    race.merged.Pending race.key position := by
  obtain ⟨sourceOffset, offset, hsource, hoffset, hmerged⟩ := h.merge
  rw [hmerged]
  exact pending_merge h.wellFormed_before h.distinct hsource hoffset hpending

theorem lists_merged (h : race.Valid) (seq : UInt64) :
    race.merged.lists race.key seq = true ↔
      race.before.lists race.key seq = true ∨ race.before.lists race.source seq = true := by
  obtain ⟨sourceOffset, offset, -, -, hmerged⟩ := h.merge
  rw [hmerged]
  exact lists_merge h.distinct sourceOffset offset seq

/-- Where the worker finds its queue. -/
theorem position_loaded (h : race.Valid) :
    race.loaded.headSeq? race.key = some race.passage.file.seq ∧
      race.loaded.offset? race.key = some race.passage.start := by
  obtain ⟨queue, hqueue, hhead, hstart⟩ := h.loaded
  obtain ⟨offset, hoffset, rfl⟩ := get?_eq_some_iff.mp hqueue
  refine ⟨?_, hstart ▸ hoffset⟩
  rw [headSeq?, show (race.loaded.filesOf race.key).head? = _ from hhead]
  rfl

/-! ## What is left to do after the merge -/

/-- An octet that is pending on the first file does not lie before the offset. -/
theorem offset_le_of_pending {tables : QueueTables} {key : QueueKey} {position : LogPosition}
    {offset : Nat} (wf : tables.WellFormed) (hpending : tables.Pending key position)
    (hhead : tables.headSeq? key = some position.seq) (hoffset : tables.offset? key = some offset) :
    offset ≤ position.offset := by
  obtain ⟨current, hcurrent, -, hle⟩ := (pending_iff wf).mp hpending
  obtain rfl : offset = current := Option.some.inj (hoffset.symm.trans hcurrent)
  exact hle hhead

/-- At any moment the worker still has to move the offset, to take the file off, or to do nothing. -/
theorem left_cases (h : race.Valid) (count : Nat) :
    race.calls.drop count = [] ∨
    (∃ rest, race.calls.drop count =
        .advance race.key race.passage.start race.passage.target :: rest ∧
      (rest = [] ∨
        (rest = [.finish race.key race.passage.file.seq] ∧ race.passage.finishable = true))) ∨
    (race.calls.drop count = [.finish race.key race.passage.file.seq] ∧
      race.passage.finishable = true) := by
  rcases h.calls_cases with hcalls | hcalls | ⟨hfinishable, hcalls | hcalls⟩ <;> rw [hcalls]
  · exact .inl List.drop_nil
  · cases count with
    | zero => exact .inr (.inl ⟨[], rfl, .inl rfl⟩)
    | succ count => exact .inl List.drop_nil
  · cases count with
    | zero => exact .inr (.inr ⟨rfl, hfinishable⟩)
    | succ count => exact .inl List.drop_nil
  · match count with
    | 0 => exact .inr (.inl ⟨_, rfl, .inr ⟨rfl, hfinishable⟩⟩)
    | 1 => exact .inr (.inr ⟨rfl, hfinishable⟩)
    | count + 2 => exact .inl List.drop_nil

theorem calls_ne_nil {count : Nat} {operation : Operation} {rest : List Operation}
    (hleft : race.calls.drop count = operation :: rest) : race.calls ≠ [] := by
  intro hnone
  rw [hnone, List.drop_nil] at hleft
  cases hleft

/-- If the offset still has to be moved, a merge that has changed it makes the call fail. -/
theorem lossless_of_advance (h : race.Valid) {length : UInt64 → Nat} {rest : List Operation}
    (hleft : race.calls.drop (race.moment - 1) =
      .advance race.key race.passage.start race.passage.target :: rest)
    (hrest : rest = [] ∨ (rest = [.finish race.key race.passage.file.seq] ∧
      length race.passage.file.seq ≤ race.passage.stop)) : race.Lossless length := by
  intro position hexists hpending hunread
  have hmerged := h.pending_merged hpending
  have hcalls : race.calls ≠ [] := calls_ne_nil hleft
  rw [after, hleft]
  cases hperform : race.merged.perform
      (.advance race.key race.passage.start race.passage.target) with
  | error error =>
    rw [attempt_of_error _ rest hperform]
    exact hmerged
  | ok moved =>
    rw [attempt_of_ok _ rest hperform]
    have hbehind (hseq : position.seq = race.passage.file.seq) :
        race.passage.stop ≤ position.offset := by
      obtain ⟨hhead, current, hcurrent, hway⟩ := advance_eq_ok_iff.mp hperform
      have hle : current ≤ position.offset :=
        offset_le_of_pending h.wellFormed_merged hmerged (hseq ▸ hhead) hcurrent
      rcases hway with ⟨hsame, -⟩ | ⟨-, rfl, -⟩
      · have hstop : race.passage.stop = current := hsame
        rw [hstop]
        exact hle
      · exact Nat.le_of_not_lt fun hlt ↦ hunread ⟨hcalls, hseq, hle, hlt⟩
    have hmoved : moved.Pending race.key position :=
      (pending_of_advance h.wellFormed_merged hperform).mpr ⟨hmerged, hbehind⟩
    rcases hrest with rfl | ⟨rfl, hend⟩
    · exact hmoved
    · have hwf : moved.WellFormed := h.wellFormed_merged.perform _ hperform
      cases hfinish : moved.perform (.finish race.key race.passage.file.seq) with
      | error error =>
        rw [attempt_of_error _ [] hfinish]
        exact hmoved
      | ok finished =>
        rw [attempt_of_ok _ [] hfinish]
        refine (pending_of_finish hwf hfinish).mpr ⟨?_, fun hseq ↦ ?_⟩
        · obtain ⟨_, -, hlisted, -⟩ := (pending_iff hwf).mp hmoved
          exact hlisted
        · have hle := hbehind hseq
          rw [hseq] at hexists
          omega

/-- Before the merge, with only the last call left, the queue stands in the worker's file, and not
before the octets it read. -/
theorem position_before (h : race.Valid) (hmoment : 0 < race.moment)
    (hleft : race.calls.drop (race.moment - 1) = [.finish race.key race.passage.file.seq]) :
    race.before.headSeq? race.key = some race.passage.file.seq ∧
      ∃ offset, race.before.offset? race.key = some offset ∧ race.passage.start ≤ offset := by
  obtain ⟨hhead, hoffset⟩ := h.position_loaded
  rw [TakeBack.loaded, if_neg (Nat.pos_iff_ne_zero.mp hmoment)] at hhead hoffset
  have hsplit := List.take_append_drop (race.moment - 1) race.calls
  rw [hleft] at hsplit
  rw [before]
  generalize race.calls.take (race.moment - 1) = done at hsplit ⊢
  rcases h.calls_cases with hcalls | hcalls | ⟨-, hcalls | hcalls⟩
  · rw [hcalls] at hsplit
    simp at hsplit
  · have hlast : done ++ [Operation.finish race.key race.passage.file.seq] =
        [] ++ [.advance race.key race.passage.start race.passage.target] := hsplit.trans hcalls
    cases (List.append_inj' hlast rfl).2
  · have hlast : done ++ [Operation.finish race.key race.passage.file.seq] =
        [] ++ [.finish race.key race.passage.file.seq] := hsplit.trans hcalls
    rw [(List.append_inj' hlast rfl).1]
    exact ⟨hhead, race.passage.start, hoffset, Nat.le_refl _⟩
  · have hlast : done ++ [Operation.finish race.key race.passage.file.seq] =
        [.advance race.key race.passage.start race.passage.target] ++
          [.finish race.key race.passage.file.seq] := hsplit.trans hcalls
    rw [(List.append_inj' hlast rfl).1]
    -- Nothing has come between loading the queue and moving its offset.
    cases hperform : race.database.queues.perform
        (.advance race.key race.passage.start race.passage.target) with
    | error error =>
      rw [attempt_of_error _ [] hperform]
      exact ⟨hhead, race.passage.start, hoffset, Nat.le_refl _⟩
    | ok moved =>
      rw [attempt_of_ok _ [] hperform]
      obtain ⟨-, current, hcurrent, ⟨-, rfl⟩ | ⟨-, -, rfl⟩⟩ := advance_eq_ok_iff.mp hperform
      · exact ⟨hhead, race.passage.start, hoffset, Nat.le_refl _⟩
      · refine ⟨hhead, race.passage.stop, ?_, h.ordered⟩
        rw [attempt, offset?_setOffset, if_pos rfl, hoffset]
        rfl

theorem lossless_of_finish (h : race.Valid) {length : UInt64 → Nat}
    (hleft : race.calls.drop (race.moment - 1) = [.finish race.key race.passage.file.seq])
    (hend : length race.passage.file.seq ≤ race.passage.stop) (hnot : ¬race.Overtaken length) :
    race.Lossless length := by
  intro position hexists hpending hunread
  have hmerged := h.pending_merged hpending
  have hcalls : race.calls ≠ [] := calls_ne_nil hleft
  rw [after, hleft]
  cases hperform : race.merged.perform (.finish race.key race.passage.file.seq) with
  | error error =>
    rw [attempt_of_error _ [] hperform]
    exact hmerged
  | ok finished =>
    rw [attempt_of_ok _ [] hperform]
    obtain ⟨-, hhead, -⟩ := finish_eq_ok_iff.mp hperform
    have hfrom (hseq : position.seq = race.passage.file.seq) :
        race.passage.start ≤ position.offset := by
      by_cases hmoment : race.moment = 0
      · obtain ⟨-, hoffset⟩ := h.position_loaded
        rw [TakeBack.loaded, if_pos hmoment] at hoffset
        exact offset_le_of_pending h.wellFormed_merged hmerged (hseq ▸ hhead) hoffset
      · have hpos : 0 < race.moment := Nat.pos_iff_ne_zero.mpr hmoment
        rcases hpending with hsource | hown
        · obtain ⟨offset, hoffset, hlisted, hle⟩ := (pending_iff h.wellFormed_before).mp hsource
          have hfirst : race.before.headSeq? race.source = some race.passage.file.seq := by
            rw [headSeq?_eq_some_iff]
            refine ⟨hseq ▸ hlisted, fun other hother ↦ ?_⟩
            exact (headSeq?_eq_some_iff.mp hhead).2 other ((h.lists_merged other).mpr (.inr hother))
          have hoffset' := hle (hseq ▸ hfirst)
          refine Nat.le_of_not_lt fun hlt ↦ hnot ⟨hpos, hleft, hfirst, offset, hoffset, by omega, ?_⟩
          rw [hseq] at hexists
          omega
        · obtain ⟨hownHead, offset, hoffset, hstart⟩ := h.position_before hpos hleft
          exact Nat.le_trans hstart
            (offset_le_of_pending h.wellFormed_before hown (hseq ▸ hownHead) hoffset)
    refine (pending_of_finish h.wellFormed_merged hperform).mpr ⟨?_, fun hseq ↦ ?_⟩
    · obtain ⟨_, -, hlisted, -⟩ := (pending_iff h.wellFormed_merged).mp hmerged
      exact hlisted
    · have hstop : race.passage.stop ≤ position.offset :=
        Nat.le_of_not_lt fun hlt ↦ hunread ⟨hcalls, hseq, hfrom hseq, hlt⟩
      rw [hseq] at hexists
      omega

/-- The octets between the recovered queue's offset and the worker's start are lost. -/
theorem not_lossless_of_overtaken (h : race.Valid) {length : UInt64 → Nat}
    (hover : race.Overtaken length) : ¬race.Lossless length := by
  obtain ⟨hmoment, hleft, hsourceHead, offset, hsource, hstart, hexists⟩ := hover
  obtain ⟨hhead, -⟩ := h.position_before hmoment hleft
  have hmergedHead : race.merged.headSeq? race.key = some race.passage.file.seq := by
    rw [headSeq?_eq_some_iff] at hhead hsourceHead ⊢
    refine ⟨(h.lists_merged _).mpr (.inl hhead.1), fun other hother ↦ ?_⟩
    rcases (h.lists_merged other).mp hother with hown | hother
    · exact hhead.2 other hown
    · exact hsourceHead.2 other hother
  intro hlossless
  have hpending : race.before.Pending race.source ⟨race.passage.file.seq, offset⟩ := by
    rw [pending_iff h.wellFormed_before]
    exact ⟨offset, hsource, (headSeq?_eq_some_iff.mp hsourceHead).1, fun _ ↦ Nat.le_refl _⟩
  have hafter := hlossless ⟨race.passage.file.seq, offset⟩ hexists (.inl hpending) fun hread ↦
    absurd hread.2.2.1 (Nat.not_le.mpr hstart)
  have hqueue : (race.merged.offset? race.key).isSome = true :=
    h.wellFormed_merged.owned _ _ (headSeq?_eq_some_iff.mp hmergedHead).1
  have hperform : race.merged.perform (.finish race.key race.passage.file.seq) =
      .ok ((race.merged.removeFile race.key race.passage.file.seq).setOffset race.key 0) :=
    finish_eq_ok_iff.mpr ⟨hqueue, hmergedHead, rfl⟩
  rw [after, hleft, attempt_of_ok _ [] hperform] at hafter
  exact ((pending_of_finish h.wellFormed_merged hperform).mp hafter).2 rfl

end Valid

/-- A queue taken back during a visit of the worker loses nothing, unless it stands lower in the very file
whose last call is still to come. The worker takes a file off only if it has read all of it. -/
theorem lossless_iff (h : race.Valid) (length : UInt64 → Nat)
    (hend : race.passage.finishable = true → length race.passage.file.seq ≤ race.passage.stop) :
    race.Lossless length ↔ ¬race.Overtaken length := by
  constructor
  · intro hlossless hover
    exact h.not_lossless_of_overtaken hover hlossless
  · intro hnot
    rcases h.left_cases (race.moment - 1) with hleft | ⟨rest, hleft, hrest⟩ | ⟨hleft, hfinishable⟩
    · intro position _ hpending _
      rw [after, hleft]
      exact h.pending_merged hpending
    · exact h.lossless_of_advance hleft (hrest.imp_right fun hlast ↦ ⟨hlast.1, hend hlast.2⟩)
    · exact h.lossless_of_finish hleft (hend hfinishable) hnot

namespace Sample

/-- The queue of a node, and one for the same slot that another node recovered and that stands lower. -/
def tables : QueueTables where
  offsets := [(.own "rs-1" "2", 200), (⟨"rs-2", "2", "rs-1"⟩, 50)]
  files :=
    [(.own "rs-1" "2", ⟨4, "rs-1.0000000004.wal"⟩), (.own "rs-1" "2", ⟨5, "rs-1.0000000005.wal"⟩),
      (⟨"rs-2", "2", "rs-1"⟩, ⟨4, "rs-1.0000000004.wal"⟩)]

theorem reachable_tables : tables.Reachable := by
  refine ⟨[.create (.own "rs-1" "2") (some (⟨4, "rs-1.0000000004.wal"⟩, 200)),
    .enqueue (.own "rs-1" "2") ⟨5, "rs-1.0000000005.wal"⟩,
    .create ⟨"rs-2", "2", "rs-1"⟩ (some (⟨4, "rs-1.0000000004.wal"⟩, 50))], ?_⟩
  decide +kernel

/-- The node's worker reads the first file from 200 to its end at 260, while it is handed the other
queue. -/
def visit (moment : Nat) : TakeBack where
  database := { Database.empty with queues := tables }
  membership := .empty
  key := .own "rs-1" "2"
  source := ⟨"rs-2", "2", "rs-1"⟩
  passage := ⟨⟨"rs-1", "2", []⟩, ⟨4, "rs-1.0000000004.wal"⟩, 200, 260, true, true⟩
  calls := [.advance (.own "rs-1" "2") 200 ⟨4, 260⟩, .finish (.own "rs-1" "2") 4]
  moment

theorem offset_own : tables.offset? (.own "rs-1" "2") = some 200 := by decide

theorem filesOf_own : tables.filesOf (.own "rs-1" "2") =
    [⟨4, "rs-1.0000000004.wal"⟩, ⟨5, "rs-1.0000000005.wal"⟩] :=
  filesOf_eq_of_perm (by decide) (by decide)

theorem advance_own : tables.advance (.own "rs-1" "2") 200 ⟨4, 260⟩ =
    .ok (tables.setOffset (.own "rs-1" "2") 260) := by
  rw [advance_eq_ok_iff, headSeq?, filesOf_own]
  exact ⟨rfl, 200, offset_own, .inr ⟨by decide, rfl, rfl⟩⟩

theorem before_visit_late : (visit 2).before = tables.setOffset (.own "rs-1" "2") 260 :=
  attempt_of_ok _ [] advance_own

theorem valid_visit {moment : Nat} (hpos : moment ≠ 0)
    (hanswer : (visit moment).reply.answer = .ok (.own "rs-1" "2")) : (visit moment).Valid where
  reachable := reachable_tables
  there := by
    show (tables.offset? (.own "rs-1" "2")).isSome = true
    rw [offset_own]
    rfl
  distinct := by
    show (⟨"rs-2", "2", "rs-1"⟩ : QueueKey) ≠ .own "rs-1" "2"
    decide
  answer := hanswer
  loaded := by
    have hloaded : (visit moment).loaded = tables := if_neg hpos
    refine ⟨⟨.own "rs-1" "2", tables.filesOf (.own "rs-1" "2"), 200⟩, ?_, ?_, rfl⟩
    · rw [hloaded, get?_eq_some_iff]
      exact ⟨200, offset_own, rfl⟩
    · rw [filesOf_own]
      rfl
  ordered := by
    show 200 ≤ 260
    decide
  calls := List.prefix_rfl

end Sample

/-- A queue that is taken back before the offset is moved loses nothing. -/
theorem lossless_taken_back_early :
    (Sample.visit 1).Valid ∧ (Sample.visit 1).Lossless fun _ ↦ 260 := by
  have hvalid : (Sample.visit 1).Valid := Sample.valid_visit (by decide) rfl
  refine ⟨hvalid, (lossless_iff hvalid (fun _ ↦ 260) fun _ ↦ by decide).mpr ?_⟩
  rintro ⟨-, hleft, -⟩
  exact absurd hleft (by decide)

/-- One that is taken back right before the file is taken off loses the octets from 50 to 200. -/
theorem not_lossless_taken_back_late :
    (Sample.visit 2).Valid ∧ ¬(Sample.visit 2).Lossless fun _ ↦ 260 := by
  have hvalid : (Sample.visit 2).Valid := by
    apply Sample.valid_visit (by decide)
    rw [TakeBack.reply, Sample.before_visit_late]
    rfl
  refine ⟨hvalid, hvalid.not_lossless_of_overtaken ⟨by decide, by decide, ?_, 50, ?_, by decide, by decide⟩⟩
  · rw [Sample.before_visit_late]
    decide +kernel
  · rw [Sample.before_visit_late]
    rfl

end TakeBack

end LogShipping
