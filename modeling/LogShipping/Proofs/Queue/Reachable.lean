import LogShipping.Proofs.Queue.Operations

/-!
# Reachable queue tables

The tables of a running cluster arise from empty ones by the operations of the queue store, in any order
and with any arguments. Such tables are well formed: a queue has one row, a file is listed only on a
queue that exists, and a queue lists each file number once. On well formed tables the files of a queue
ascend strictly.
-/

namespace LogShipping.QueueTables

/-! ## Runs of operations -/

inductive Operation
  | create (key : QueueKey) (seed : Option (FileRef × Nat))
  | enqueue (key : QueueKey) (file : FileRef)
  | advance (key : QueueKey) (start : Nat) (target : LogPosition)
  | finish (key : QueueKey) (seq : UInt64)
  | handOver (key : QueueKey) (newOwner : String)
  | drop (key : QueueKey)
  deriving Repr, DecidableEq

/-- The tables after an operation that may be refused. -/
def settle (tables : QueueTables) : Outcome QueueTables → QueueTables
  | .ok after => after
  | .error _ => tables

/-- One transaction. -/
def perform (tables : QueueTables) : Operation → Outcome QueueTables
  | .create key seed => .ok (tables.create key seed).2
  | .enqueue key file => tables.enqueue key file
  | .advance key start target => tables.advance key start target
  | .finish key seq => tables.finish key seq
  | .handOver key newOwner => tables.handOver key newOwner
  | .drop key => .ok (tables.drop key).2

def apply (tables : QueueTables) (operation : Operation) : QueueTables :=
  tables.settle (tables.perform operation)

def run (tables : QueueTables) (operations : List Operation) : QueueTables :=
  operations.foldl apply tables

/-- Some run of operations leads from empty tables to these. -/
def Reachable (tables : QueueTables) : Prop := ∃ operations, run empty operations = tables

section Induction

variable {tables : QueueTables} {condition : QueueTables → Prop}

/-- Only an operation that is carried out can matter. -/
theorem settle_induction (h : condition tables) {outcome : Outcome QueueTables}
    (hok : ∀ after, outcome = .ok after → condition after) : condition (tables.settle outcome) := by
  cases outcome with
  | ok after => exact hok after rfl
  | error error => exact h

/-- What each operation keeps, a run of them keeps. -/
theorem run_induction (h : condition tables) {operations : List Operation}
    (hstep : ∀ tables, condition tables → ∀ operation ∈ operations, condition (tables.apply operation)) :
    condition (tables.run operations) := by
  induction operations generalizing tables with
  | nil => exact h
  | cons operation rest ih =>
    apply ih (hstep tables h operation List.mem_cons_self)
    intro later hlater other hother
    exact hstep later hlater other (List.mem_cons_of_mem _ hother)

end Induction

/-! ## Well formed tables -/

structure WellFormed (tables : QueueTables) : Prop where
  keys_nodup : (tables.offsets.map (·.1)).Nodup
  /-- A file is listed only on a queue that exists. -/
  owned : ∀ key seq, tables.lists key seq = true → (tables.offset? key).isSome = true
  /-- A queue lists a file number once. -/
  once : tables.files.Pairwise fun x y ↦ ¬(x.1 = y.1 ∧ x.2.seq = y.2.seq)

theorem offset?_eq_none_iff {tables : QueueTables} {key : QueueKey} :
    tables.offset? key = none ↔ key ∉ tables.offsets.map (·.1) := by
  rw [offset?, List.lookup_eq_none_iff]
  constructor
  · intro h hmem
    obtain ⟨row, hrow, rfl⟩ := List.mem_map.mp hmem
    simpa using h row hrow
  · intro h row hrow
    simp only [bne_iff_ne, ne_eq]
    rintro rfl
    exact h (List.mem_map_of_mem hrow)

theorem mem_keysOwnedBy {tables : QueueTables} {key : QueueKey} {owner : String} :
    key ∈ tables.keysOwnedBy owner ↔ (tables.offset? key).isSome = true ∧ key.owner = owner := by
  have hkeys : key ∈ tables.keys ↔ key ∈ tables.offsets.map (·.1) := List.mem_mergeSort
  rw [keysOwnedBy, List.mem_filter, hkeys, beq_iff_eq, Option.isSome_iff_ne_none, ne_eq,
    offset?_eq_none_iff, Decidable.not_not]

namespace WellFormed

variable {tables : QueueTables} {key : QueueKey}

theorem empty : QueueTables.empty.WellFormed where
  keys_nodup := List.nodup_nil
  owned := by simp [lists, QueueTables.empty]
  once := List.Pairwise.nil

theorem not_lists (wf : tables.WellFormed) (habsent : tables.offset? key = none) (seq : UInt64) :
    tables.lists key seq = false := by
  rw [← Bool.not_eq_true]
  intro hlisted
  have := wf.owned key seq hlisted
  rw [habsent] at this
  exact Bool.false_ne_true this

/-- The files of a queue ascend strictly. -/
theorem pairwise_filesOf_lt (wf : tables.WellFormed) (key : QueueKey) :
    (tables.filesOf key).Pairwise fun x y ↦ rank x.seq < rank y.seq := by
  have hdistinct : (tables.filesOf key).Pairwise fun x y ↦ x.seq ≠ y.seq := by
    have hrows : (tables.files.filterMap fun row ↦ if row.1 = key then some row.2 else none).Pairwise
        fun x y ↦ x.seq ≠ y.seq := by
      refine List.Pairwise.filterMap _ ?_ wf.once
      intro x y hxy a ha b hb hseq
      by_cases hx : x.1 = key <;> by_cases hy : y.1 = key <;> simp_all
    exact (List.mergeSort_perm _ _).symm.pairwise hrows fun h ↦ Ne.symm h
  refine (pairwise_filesOf tables key).imp₂ ?_ hdistinct
  intro x y hle hne
  have : rank x.seq ≠ rank y.seq := fun h ↦ hne (rank_injective h)
  omega

/-! ## Each operation keeps tables well formed -/

theorem setOffset (wf : tables.WellFormed) (key : QueueKey) (offset : Nat) :
    (tables.setOffset key offset).WellFormed where
  keys_nodup := by
    have hkeys : (tables.setOffset key offset).offsets.map (·.1) = tables.offsets.map (·.1) := by
      rw [QueueTables.setOffset, List.map_map]
      apply List.map_congr_left
      intro row _
      by_cases h : row.1 = key <;> simp [h]
    rw [hkeys]
    exact wf.keys_nodup
  owned := by
    intro other seq hlisted
    have hthere := wf.owned other seq hlisted
    rw [offset?_setOffset]
    split
    case isTrue h => rwa [Option.isSome_map, ← h]
    case isFalse => exact hthere
  once := wf.once

theorem addFile (wf : tables.WellFormed) {file : FileRef}
    (hqueue : (tables.offset? key).isSome = true) (hnew : tables.lists key file.seq = false) :
    (tables.addFile key file).WellFormed where
  keys_nodup := wf.keys_nodup
  owned := by
    intro other seq hlisted
    rw [lists_addFile, Bool.or_eq_true, Bool.and_eq_true, beq_iff_eq] at hlisted
    rcases hlisted with hlisted | ⟨rfl, -⟩
    · exact wf.owned other seq hlisted
    · exact hqueue
  once := by
    rw [QueueTables.addFile, List.pairwise_append]
    refine ⟨wf.once, List.pairwise_singleton _ _, ?_⟩
    rintro ⟨owner, listed⟩ hrow _ hlast ⟨hkey, hseq⟩
    obtain rfl := List.mem_singleton.mp hlast
    obtain rfl : owner = key := hkey
    have hthere : tables.lists owner file.seq = true := lists_iff.mpr ⟨listed, hrow, hseq⟩
    exact Bool.false_ne_true (hnew.symm.trans hthere)

theorem addMissing (wf : tables.WellFormed) (hqueue : (tables.offset? key).isSome = true)
    (file : FileRef) : (tables.addMissing key file).WellFormed := by
  unfold QueueTables.addMissing
  split
  case isTrue => exact wf
  case isFalse hnew => exact wf.addFile hqueue (Bool.not_eq_true _ ▸ hnew)

theorem foldl_addMissing (files : List FileRef) (wf : tables.WellFormed)
    (hqueue : (tables.offset? key).isSome = true) :
    (files.foldl (fun tables file ↦ tables.addMissing key file) tables).WellFormed := by
  induction files generalizing tables with
  | nil => exact wf
  | cons file rest ih =>
    rw [List.foldl_cons]
    exact ih (wf.addMissing hqueue file) (by rwa [offset?_addMissing])

theorem removeFile (wf : tables.WellFormed) (key : QueueKey) (seq : UInt64) :
    (tables.removeFile key seq).WellFormed where
  keys_nodup := wf.keys_nodup
  owned := by
    intro other number hlisted
    rw [lists_removeFile, Bool.and_eq_true] at hlisted
    exact wf.owned other number hlisted.1
  once := wf.once.filter _

theorem remove (wf : tables.WellFormed) (key : QueueKey) : (tables.remove key).WellFormed where
  keys_nodup := wf.keys_nodup.sublist (List.filter_sublist.map _)
  owned := by
    intro other seq hlisted
    rw [lists_remove, Bool.and_eq_true, bne_iff_ne] at hlisted
    rw [offset?_remove, if_neg hlisted.2]
    exact wf.owned other seq hlisted.1
  once := wf.once.filter _

theorem rename (wf : tables.WellFormed) {target : QueueKey}
    (habsent : tables.offset? target = none) : (tables.rename key target).WellFormed where
  keys_nodup := by
    have hnew := offset?_eq_none_iff.mp habsent
    rw [QueueTables.rename, List.map_map, List.nodup_iff_pairwise_ne, List.pairwise_map]
    have hkeys := List.pairwise_map.mp (List.nodup_iff_pairwise_ne.mp wf.keys_nodup)
    apply hkeys.imp_of_mem
    intro x y hx hy hne
    have hxt : x.1 ≠ target := fun h ↦ hnew (h ▸ List.mem_map_of_mem hx)
    have hyt : y.1 ≠ target := fun h ↦ hnew (h ▸ List.mem_map_of_mem hy)
    by_cases hxk : x.1 = key <;> by_cases hyk : y.1 = key <;> simp_all [Ne.symm]
  owned := by
    intro other seq hlisted
    rw [offset?_rename habsent]
    rcases (lists_rename _ _ _ _ _).mp hlisted with ⟨rfl, hold⟩ | ⟨hne, hold⟩
    · rw [if_pos rfl]
      exact wf.owned key seq hold
    · have hthere := wf.owned other seq hold
      have hother : other ≠ target := by
        rintro rfl
        rw [habsent] at hthere
        exact Bool.false_ne_true hthere
      rw [if_neg hother, if_neg hne]
      exact hthere
  once := by
    rw [QueueTables.rename, List.pairwise_map]
    apply wf.once.imp_of_mem
    rintro ⟨k, f⟩ ⟨k', f'⟩ hx hy hne
    have hold (owner : QueueKey) (file : FileRef) (hrow : (owner, file) ∈ tables.files) :
        owner ≠ target := by
      rintro rfl
      have hthere := wf.not_lists habsent file.seq
      rw [lists_iff.mpr ⟨file, hrow, rfl⟩] at hthere
      exact Bool.false_ne_true hthere.symm
    have hk := hold k f hx
    have hk' := hold k' f' hy
    by_cases hkk : k = key <;> by_cases hkk' : k' = key <;> simp_all [Ne.symm]

theorem create (wf : tables.WellFormed) (key : QueueKey) (seed : Option (FileRef × Nat)) :
    (tables.create key seed).2.WellFormed := by
  have hrow (offset : Nat) (habsent : tables.offset? key = none) :
      { tables with offsets := tables.offsets ++ [(key, offset)] }.WellFormed := by
    refine ⟨?_, ?_, wf.once⟩
    · rw [List.map_append, List.nodup_append]
      refine ⟨wf.keys_nodup, by simp, ?_⟩
      rintro old hold _ hnew rfl
      obtain rfl : old = key := List.mem_singleton.mp hnew
      exact offset?_eq_none_iff.mp habsent hold
    · intro other seq hlisted
      have hthere := wf.owned other seq hlisted
      simp only [offset?, List.lookup_append] at hthere ⊢
      rw [Option.isSome_or, hthere, Bool.true_or]
  unfold QueueTables.create
  split
  case h_1 => exact wf
  case h_2 habsent =>
    split
    case h_1 => exact hrow 0 habsent
    case h_2 file offset =>
      refine (hrow offset habsent).addFile ?_ (wf.not_lists habsent file.seq)
      simp only [offset?, List.lookup_append] at habsent ⊢
      simp [habsent]

theorem enqueue (wf : tables.WellFormed) (key : QueueKey) (file : FileRef) :
    (tables.settle (tables.enqueue key file)).WellFormed := by
  apply settle_induction wf
  intro after hafter
  obtain ⟨hqueue, ⟨-, rfl⟩ | ⟨rfl, hnew, -⟩⟩ := enqueue_eq_ok_iff.mp hafter
  · exact wf
  · exact wf.addFile hqueue hnew

theorem advance (wf : tables.WellFormed) (key : QueueKey) (start : Nat) (target : LogPosition) :
    (tables.settle (tables.advance key start target)).WellFormed := by
  apply settle_induction wf
  intro after hafter
  obtain ⟨-, current, -, ⟨-, rfl⟩ | ⟨-, -, rfl⟩⟩ := advance_eq_ok_iff.mp hafter
  · exact wf
  · exact wf.setOffset key target.offset

theorem finish (wf : tables.WellFormed) (key : QueueKey) (seq : UInt64) :
    (tables.settle (tables.finish key seq)).WellFormed := by
  apply settle_induction wf
  intro after hafter
  obtain ⟨-, -, rfl⟩ := finish_eq_ok_iff.mp hafter
  exact (wf.removeFile key seq).setOffset key 0

theorem merge (wf : tables.WellFormed) {source into : QueueKey} (sourceOffset intoOffset : Nat)
    (hinto : (tables.offset? into).isSome = true) :
    (tables.merge source sourceOffset into intoOffset).WellFormed :=
  ((wf.foldl_addMissing _ hinto).setOffset into _).remove source

theorem handOver (wf : tables.WellFormed) (key : QueueKey) (newOwner : String) :
    (tables.settle (tables.handOver key newOwner)).WellFormed := by
  apply settle_induction wf
  intro after hafter
  obtain ⟨offset, -, ⟨habsent, rfl⟩ | ⟨there, hthere, -, rfl⟩⟩ := handOver_eq_ok_iff.mp hafter
  · exact wf.rename habsent
  · exact wf.merge _ _ (by rw [hthere]; rfl)

theorem apply (wf : tables.WellFormed) (operation : Operation) :
    (tables.apply operation).WellFormed := by
  cases operation with
  | create key seed => exact wf.create key seed
  | enqueue key file => exact wf.enqueue key file
  | advance key start target => exact wf.advance key start target
  | finish key seq => exact wf.finish key seq
  | handOver key newOwner => exact wf.handOver key newOwner
  | drop key => exact wf.remove key

theorem perform (wf : tables.WellFormed) (operation : Operation) {after : QueueTables}
    (h : tables.perform operation = .ok after) : after.WellFormed := by
  have happlied := wf.apply operation
  rw [QueueTables.apply, h] at happlied
  exact happlied

theorem run (operations : List Operation) (wf : tables.WellFormed) :
    (tables.run operations).WellFormed :=
  run_induction wf fun _ wf operation _ ↦ wf.apply operation

end WellFormed

theorem Reachable.wellFormed {tables : QueueTables} (h : tables.Reachable) : tables.WellFormed := by
  obtain ⟨operations, rfl⟩ := h
  exact WellFormed.empty.run operations

end LogShipping.QueueTables
