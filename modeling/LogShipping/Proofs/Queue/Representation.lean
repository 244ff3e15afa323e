import LogShipping.Proofs.Queue.Calls
import LogShipping.Proofs.Queue.Position

/-!
# What the queue tables stand for

From empty tables on, the two tables stand for queues whatever calls are made: one row for a queue,
every file on a queue that exists, the files of a queue ascending, and a queue without files at the
start, so that the next file is read from its first octet. The order of the tables is that of the
numbers as long as these are below 2⁶³, and a number is in the tables only if a call listed it.
-/

namespace LogShipping

namespace QueueTables

variable {tables after : QueueTables} {key : QueueKey} {file : FileRef}

/-! ## Listed files come from calls -/

/-- The file that an operation may list. -/
def Operation.file? : Operation → Option FileRef
  | .create _ seed => seed.map (·.1)
  | .enqueue _ file => some file
  | _ => none

/-- All listed files satisfy the condition. -/
def AllFiles (tables : QueueTables) (condition : FileRef → Prop) : Prop :=
  ∀ row ∈ tables.files, condition row.2

namespace AllFiles

variable {condition : FileRef → Prop}

theorem empty : QueueTables.empty.AllFiles condition := by
  intro row hrow
  cases hrow

theorem addFile (hall : tables.AllFiles condition) (hfile : condition file) :
    (tables.addFile key file).AllFiles condition := by
  intro row hrow
  rcases List.mem_append.mp hrow with hold | hnew
  · exact hall row hold
  · rw [List.mem_singleton.mp hnew]
    exact hfile

theorem foldl_addMissing (hall : tables.AllFiles condition) {files : List FileRef}
    (hfiles : ∀ file ∈ files, condition file) :
    (files.foldl (fun tables file ↦ tables.addMissing key file) tables).AllFiles condition := by
  induction files generalizing tables with
  | nil => exact hall
  | cons file rest ih =>
    rw [List.foldl_cons]
    apply ih
    · unfold addMissing
      split
      case isTrue => exact hall
      case isFalse => exact hall.addFile (hfiles file List.mem_cons_self)
    · intro other hother
      exact hfiles other (List.mem_cons_of_mem _ hother)

theorem remove (hall : tables.AllFiles condition) (key : QueueKey) :
    (tables.remove key).AllFiles condition :=
  fun row hrow ↦ hall row (List.mem_filter.mp hrow).1

theorem rename (hall : tables.AllFiles condition) (key target : QueueKey) :
    (tables.rename key target).AllFiles condition := by
  intro row hrow
  obtain ⟨old, hold, rfl⟩ := List.mem_map.mp hrow
  split
  case isTrue => exact hall old hold
  case isFalse => exact hall old hold

theorem merge (hall : tables.AllFiles condition) (source into : QueueKey)
    (sourceOffset intoOffset : Nat) :
    (tables.merge source sourceOffset into intoOffset).AllFiles condition := by
  refine AllFiles.remove ?_ source
  refine hall.foldl_addMissing fun file hfile ↦ ?_
  exact hall (source, file) (mem_filesOf.mp hfile)

theorem create (hall : tables.AllFiles condition) (key : QueueKey) {seed : Option (FileRef × Nat)}
    (hseed : ∀ file ∈ seed.map (·.1), condition file) :
    (tables.create key seed).2.AllFiles condition := by
  unfold QueueTables.create
  split
  case h_1 => exact hall
  case h_2 =>
    split
    case h_1 => exact hall
    case h_2 file offset => exact addFile (fun row hrow ↦ hall row hrow) (hseed file rfl)

/-- An operation lists no file but its own. -/
theorem apply (hall : tables.AllFiles condition) {operation : Operation}
    (hfile : ∀ file ∈ operation.file?, condition file) : (tables.apply operation).AllFiles condition := by
  have hsettle := @settle_induction tables (·.AllFiles condition) hall
  cases operation with
  | create key seed => exact hall.create key hfile
  | enqueue key file =>
    apply hsettle
    intro after hafter
    obtain ⟨-, ⟨-, rfl⟩ | ⟨rfl, -, -⟩⟩ := enqueue_eq_ok_iff.mp hafter
    · exact hall
    · exact hall.addFile (hfile file rfl)
  | advance key start target =>
    apply hsettle
    intro after hafter
    obtain ⟨-, current, -, ⟨-, rfl⟩ | ⟨-, -, rfl⟩⟩ := advance_eq_ok_iff.mp hafter
    · exact hall
    · exact hall
  | finish key seq =>
    apply hsettle
    intro after hafter
    obtain ⟨-, -, rfl⟩ := finish_eq_ok_iff.mp hafter
    exact fun row hrow ↦ hall row (List.mem_filter.mp hrow).1
  | handOver key newOwner =>
    apply hsettle
    intro after hafter
    obtain ⟨offset, -, ⟨-, rfl⟩ | ⟨there, -, -, rfl⟩⟩ := handOver_eq_ok_iff.mp hafter
    · exact hall.rename key (key.withOwner newOwner)
    · exact hall.merge key (key.withOwner newOwner) offset there
  | drop key => exact hall.remove key

theorem run {operations : List Operation} (hall : tables.AllFiles condition)
    (hfiles : ∀ operation ∈ operations, ∀ file ∈ operation.file?, condition file) :
    (tables.run operations).AllFiles condition :=
  @run_induction tables (·.AllFiles condition) hall operations fun _ hall operation hoperation ↦
    hall.apply (hfiles operation hoperation)

end AllFiles

/-! ## The invariant -/

/-- The two tables stand for queues. -/
structure Represent (tables : QueueTables) : Prop where
  /-- A queue has one row. -/
  keys_nodup : (tables.offsets.map (·.1)).Nodup
  /-- A file is listed on a queue that exists. -/
  owned : ∀ row ∈ tables.files, (tables.get? row.1).isSome = true
  ascending : ∀ key queue, tables.get? key = some queue →
    queue.files.Pairwise fun x y ↦ x.seq < y.seq
  /-- A queue without files stands at the start. -/
  fresh : ∀ key queue, tables.get? key = some queue → queue.files = [] → queue.offset = 0
  /-- The next file on such a queue is read from its first octet. -/
  next : ∀ key queue, tables.get? key = some queue → queue.files = [] →
    ∀ file, ∃ after, tables.enqueue key file = .ok after ∧ after.get? key = some ⟨key, [file], 0⟩

/-- The number of the file is one that the tables order as it is. -/
def Small (file : FileRef) : Prop := file.seq.toNat < 1 <<< 63

theorem WellFormed.pairwise_filesOf_of_small (wf : tables.WellFormed) (hsmall : tables.AllFiles Small)
    (key : QueueKey) : (tables.filesOf key).Pairwise fun x y ↦ x.seq < y.seq := by
  apply (wf.pairwise_filesOf_lt key).imp_of_mem
  intro x y hx hy hlt
  have hx' : Small x := hsmall (key, x) (mem_filesOf.mp hx)
  have hy' : Small y := hsmall (key, y) (mem_filesOf.mp hy)
  rw [rank_eq_toNat hx', rank_eq_toNat hy'] at hlt
  rw [UInt64.lt_iff_toNat_lt]
  exact Int.ofNat_lt.mp hlt

/-- Without a file, nothing is listed. -/
theorem lists_eq_false_of_filesOf_eq_nil (hfiles : tables.filesOf key = []) (seq : UInt64) :
    tables.lists key seq = false := by
  apply headSeq?_eq_none_iff.mp
  rw [headSeq?, hfiles]
  rfl

/-- A first file is listed alone, at the offset that is there. -/
theorem WellFormed.enqueue_first (wf : tables.WellFormed) {offset : Nat}
    (hoffset : tables.offset? key = some offset) (hfiles : tables.filesOf key = []) (file : FileRef) :
    tables.enqueue key file = .ok (tables.addFile key file) ∧
      (tables.addFile key file).get? key = some ⟨key, [file], offset⟩ := by
  have hempty := lists_eq_false_of_filesOf_eq_nil hfiles
  have hthere : (tables.offset? key).isSome = true := by rw [hoffset]; rfl
  constructor
  · refine enqueue_eq_ok_iff.mpr ⟨hthere, .inr ⟨rfl, hempty file.seq, ?_⟩⟩
    intro tail htail
    rw [tailSeq?_eq_none_iff.mpr hempty] at htail
    cases htail
  · have halone : (tables.addFile key file).filesOf key = [file] := by
      apply filesOf_eq_of_mem (wf.addFile hthere (hempty file.seq)) (List.pairwise_singleton _ _)
      intro other
      rw [QueueTables.addFile, List.mem_append, ← mem_filesOf, hfiles]
      simp
    rw [get?_eq_some_iff]
    exact ⟨offset, hoffset, by rw [halone]⟩

theorem represent_of_wellFormed (wf : tables.WellFormed) (hfresh : tables.Fresh)
    (hsmall : tables.AllFiles Small) : tables.Represent := by
  have hstart (key : QueueKey) (queue : Queue) (hqueue : tables.get? key = some queue)
      (hempty : queue.files = []) : tables.offset? key = some 0 ∧ tables.filesOf key = [] := by
    obtain ⟨offset, hoffset, rfl⟩ := get?_eq_some_iff.mp hqueue
    obtain rfl := hfresh key offset hoffset (lists_eq_false_of_filesOf_eq_nil hempty)
    exact ⟨hoffset, hempty⟩
  constructor
  case keys_nodup => exact wf.keys_nodup
  case owned =>
    intro row hrow
    rw [get?_isSome]
    exact wf.owned row.1 row.2.seq (lists_iff.mpr ⟨row.2, hrow, rfl⟩)
  case ascending =>
    intro key queue hqueue
    obtain ⟨offset, -, rfl⟩ := get?_eq_some_iff.mp hqueue
    exact wf.pairwise_filesOf_of_small hsmall key
  case fresh =>
    intro key queue hqueue hempty
    have hzero := (hstart key queue hqueue hempty).1
    obtain ⟨offset, hoffset, rfl⟩ := get?_eq_some_iff.mp hqueue
    exact Option.some.inj (hoffset.symm.trans hzero)
  case next =>
    intro key queue hqueue hempty file
    obtain ⟨hzero, hnone⟩ := hstart key queue hqueue hempty
    exact ⟨_, wf.enqueue_first hzero hnone file⟩

end QueueTables

namespace QueueStore

/-- Whatever calls are made from empty tables on, the tables stand for queues, as long as the numbers of
the files to be listed are below 2⁶³. -/
theorem represent_serveAll {database : Database} (hempty : database.queues = .empty) {calls : List Call}
    (hsmall : ∀ call ∈ calls, ∀ file ∈ call.operation.file?, file.seq.toNat < 1 <<< 63) :
    (serveAll database calls).database.queues.Represent := by
  obtain ⟨operations, hmade, hafter⟩ := queues_serveAll database calls
  rw [hafter, hempty]
  have hreach : (QueueTables.run .empty operations).Reachable := ⟨operations, rfl⟩
  apply QueueTables.represent_of_wellFormed hreach.wellFormed hreach.fresh
  refine QueueTables.AllFiles.run .empty ?_
  intro operation hoperation
  obtain ⟨call, hcall, rfl⟩ := List.mem_map.mp (hmade.subset hoperation)
  exact hsmall call hcall

/-- A queue is recovered and emptied, its origin starts a new one, and the two are merged. -/
def mergedWhenEmpty : List Call :=
  [.create (.own "rs-1" "2") (some (⟨4, "rs-1.0000000004.wal"⟩, 200)),
    .transfer .empty (.own "rs-1" "2") "rs-2", .finish ⟨"rs-2", "2", "rs-1"⟩ 4,
    .create (.own "rs-1" "2") none, .transfer .empty ⟨"rs-2", "2", "rs-1"⟩ "rs-1"]

/-- The merged queue is without files and at the start. -/
theorem represent_mergedWhenEmpty :
    (∀ call ∈ mergedWhenEmpty, ∀ file ∈ call.operation.file?, file.seq.toNat < 1 <<< 63) ∧
      (serveAll .empty mergedWhenEmpty).database.queues.get? (.own "rs-1" "2") =
        some ⟨.own "rs-1" "2", [], 0⟩ ∧
      (serveAll .empty mergedWhenEmpty).database.queues.Represent := by
  have hsmall : ∀ call ∈ mergedWhenEmpty, ∀ file ∈ call.operation.file?, file.seq.toNat < 1 <<< 63 := by
    decide
  exact ⟨hsmall, by decide +kernel, represent_serveAll rfl hsmall⟩

end QueueStore

end LogShipping
