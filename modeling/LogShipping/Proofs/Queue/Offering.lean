import LogShipping.Proofs.Queue.Position

/-!
# Offering a file to queues

A file that is offered to a queue is listed behind the others if its number is larger than the last one,
and otherwise nothing changes. A number that comes once a larger one is listed has thus missed its turn,
unless all files are taken off in between. What is offered to several queues has the same effect on each
as if it were offered to that queue alone.
-/

namespace LogShipping.QueueTables

variable {tables after : QueueTables} {key other : QueueKey}

/-! ## Queues that stay as they are -/

/-- Every queue of these tables is a queue of the larger ones, just as it stands. -/
def Within (tables larger : QueueTables) : Prop :=
  ∀ key queue, tables.get? key = some queue → larger.get? key = some queue

theorem Within.refl (tables : QueueTables) : tables.Within tables := fun _ _ h ↦ h

theorem Within.trans {larger largest : QueueTables} (h : tables.Within larger)
    (hlarger : larger.Within largest) : tables.Within largest :=
  fun key queue hqueue ↦ hlarger key queue (h key queue hqueue)

/-- A queue that is there before and after is the same. -/
theorem Within.lists_eq {smaller larger : QueueTables} (h : smaller.Within larger)
    (hthere : (smaller.offset? key).isSome = true) (seq : UInt64) :
    larger.lists key seq = smaller.lists key seq := by
  obtain ⟨offset, hoffset⟩ := Option.isSome_iff_exists.mp hthere
  obtain ⟨_, -, hqueue⟩ := get?_eq_some_iff.mp (h key _ (get?_eq_some_iff.mpr ⟨offset, hoffset, rfl⟩))
  have hfiles : smaller.filesOf key = larger.filesOf key := congrArg Queue.files hqueue
  rw [Bool.eq_iff_iff, lists_iff_mem_filesOf, lists_iff_mem_filesOf, hfiles]

theorem filesOf_addFile_of_ne (hne : key ≠ other) (file : FileRef) :
    (tables.addFile key file).filesOf other = tables.filesOf other := by
  unfold filesOf addFile
  rw [List.filterMap_append]
  simp [hne]

/-- A new queue changes none that is there. -/
theorem within_create (tables : QueueTables) (key : QueueKey) (seed : Option (FileRef × Nat)) :
    tables.Within (tables.create key seed).2 := by
  unfold create
  split
  case h_1 => exact .refl tables
  case h_2 habsent =>
    have hrow (offset : Nat) :
        tables.Within { tables with offsets := tables.offsets ++ [(key, offset)] } := by
      intro other queue hqueue
      obtain ⟨there, hthere, rfl⟩ := get?_eq_some_iff.mp hqueue
      refine get?_eq_some_iff.mpr ⟨there, ?_, rfl⟩
      rw [offset?, List.lookup_append, show tables.offsets.lookup other = some there from hthere]
      rfl
    split
    case h_1 => exact hrow 0
    case h_2 file offset =>
      intro other queue hqueue
      obtain ⟨there, hthere, -⟩ := get?_eq_some_iff.mp hqueue
      have hne : key ≠ other := by
        rintro rfl
        rw [habsent] at hthere
        cases hthere
      obtain ⟨current, hcurrent, rfl⟩ := get?_eq_some_iff.mp (hrow offset other queue hqueue)
      refine get?_eq_some_iff.mpr ⟨current, hcurrent, ?_⟩
      rw [filesOf_addFile_of_ne hne]

theorem within_remove (tables : QueueTables) (key : QueueKey) : (tables.remove key).Within tables := by
  intro other queue hqueue
  obtain ⟨offset, hoffset, rfl⟩ := get?_eq_some_iff.mp hqueue
  rw [offset?_remove] at hoffset
  split at hoffset
  case isTrue => cases hoffset
  case isFalse hne =>
    refine get?_eq_some_iff.mpr ⟨offset, hoffset, ?_⟩
    have hfiles : (tables.remove key).filesOf other = tables.filesOf other := by
      unfold filesOf remove
      rw [List.filterMap_filter]
      congr 2
      funext row
      by_cases hrow : row.1 = key
      · simp [hrow, Ne.symm hne]
      · simp [hrow]
    rw [hfiles]

theorem get?_remove_of_ne (tables : QueueTables) (hne : other ≠ key) :
    (tables.remove key).get? other = tables.get? other := by
  have hoffset : (tables.remove key).offset? other = tables.offset? other := by
    rw [offset?_remove, if_neg hne]
  cases hthere : tables.offset? other with
  | none => rw [get?, get?, hoffset, hthere, Option.map_none, Option.map_none]
  | some offset =>
    have hqueue := get?_eq_some_iff.mpr ⟨offset, hoffset.trans hthere, rfl⟩
    exact hqueue.trans (within_remove tables key other _ hqueue).symm

/-! ## One queue -/

/-- The tables after a file was offered to a queue, which may refuse it. -/
def offer (tables : QueueTables) (key : QueueKey) (file : FileRef) : QueueTables :=
  tables.settle (tables.enqueue key file)

/-- The last number, if there is one, is smaller. -/
def Admits (tail : Option UInt64) (seq : UInt64) : Prop := ∀ last, tail = some last → last < seq

instance (tail : Option UInt64) (seq : UInt64) : Decidable (Admits tail seq) := by
  cases tail with
  | none => exact .isTrue fun _ h ↦ by cases h
  | some last =>
    refine decidable_of_iff (last < seq) ⟨fun hlt other h ↦ ?_, fun h ↦ h last rfl⟩
    rw [← Option.some.inj h]
    exact hlt

/-- The last number once another one was offered. The tables order numbers as signed words, so a number
that is admitted may still come before the last one. -/
def newer : (tail : Option UInt64) → (seq : UInt64) → Option UInt64
  | none, seq => some seq
  | some last, seq => if last < seq ∧ rank last < rank seq then some seq else some last

/-- The queue has been offered a number: it is listed if the queue admits it. -/
def Offered (key : QueueKey) (seq : UInt64) (tables after : QueueTables) : Prop :=
  (after.offset? key).isSome = (tables.offset? key).isSome ∧
    ∀ other, after.lists key other = true ↔
      tables.lists key other = true ∨ (other = seq ∧ Admits (tables.tailSeq? key) seq)

theorem Offered.tailSeq?_eq {seq : UInt64} (h : Offered key seq tables after) :
    after.tailSeq? key = newer (tables.tailSeq? key) seq := by
  obtain ⟨-, hlists⟩ := h
  cases htail : tables.tailSeq? key with
  | none =>
    rw [htail] at hlists
    have hnone := tailSeq?_eq_none_iff.mp htail
    refine tailSeq?_eq_some_iff.mpr ⟨(hlists seq).mpr (.inr ⟨rfl, fun _ hlast ↦ by cases hlast⟩), ?_⟩
    intro other hother
    rcases (hlists other).mp hother with hold | ⟨rfl, -⟩
    · rw [hnone other] at hold
      cases hold
    · exact Int.le_refl _
  | some last =>
    rw [htail] at hlists
    obtain ⟨hlast, hlargest⟩ := tailSeq?_eq_some_iff.mp htail
    rw [newer]
    split
    case isTrue hnew =>
      refine tailSeq?_eq_some_iff.mpr ⟨(hlists seq).mpr (.inr ⟨rfl, ?_⟩), ?_⟩
      · intro _ hsame
        rw [← Option.some.inj hsame]
        exact hnew.1
      · intro other hother
        rcases (hlists other).mp hother with hold | ⟨rfl, -⟩
        · exact Int.le_trans (hlargest other hold) (Int.le_of_lt hnew.2)
        · exact Int.le_refl _
    case isFalse hnot =>
      refine tailSeq?_eq_some_iff.mpr ⟨(hlists last).mpr (.inl hlast), ?_⟩
      intro other hother
      rcases (hlists other).mp hother with hold | ⟨rfl, hadmits⟩
      · exact hlargest other hold
      · exact Int.not_lt.mp fun hlt ↦ hnot ⟨hadmits last rfl, hlt⟩

theorem offset?_offer (file : FileRef) : (tables.offer key file).offset? other = tables.offset? other := by
  unfold offer settle
  cases henqueue : tables.enqueue key file with
  | error error => rfl
  | ok after =>
    obtain ⟨-, ⟨-, rfl⟩ | ⟨rfl, -⟩⟩ := enqueue_eq_ok_iff.mp henqueue <;> rfl

theorem filesOf_offer_of_ne (hne : key ≠ other) (file : FileRef) :
    (tables.offer key file).filesOf other = tables.filesOf other := by
  unfold offer settle
  cases henqueue : tables.enqueue key file with
  | error error => rfl
  | ok after =>
    obtain ⟨-, ⟨-, rfl⟩ | ⟨rfl, -⟩⟩ := enqueue_eq_ok_iff.mp henqueue
    · rfl
    · exact filesOf_addFile_of_ne hne file

/-- This is what offering a file to a queue comes to. -/
theorem offered_offer (hthere : (tables.offset? key).isSome = true) (file : FileRef) :
    Offered key file.seq tables (tables.offer key file) := by
  refine ⟨by rw [offset?_offer], fun other ↦ ?_⟩
  cases henqueue : tables.enqueue key file with
  | ok after =>
    have hoffer : tables.offer key file = after := by rw [offer, henqueue, settle]
    rw [hoffer]
    obtain ⟨-, ⟨htail, rfl⟩ | ⟨rfl, -, hadmits⟩⟩ := enqueue_eq_ok_iff.mp henqueue
    · refine ⟨.inl, ?_⟩
      rintro (hold | ⟨-, hadmits⟩)
      · exact hold
      · exact absurd (hadmits _ htail) (UInt64.lt_irrefl _)
    · rw [lists_addFile, beq_self_eq_true, Bool.true_and, Bool.or_eq_true, beq_iff_eq,
        @eq_comm _ file.seq other]
      exact or_congr_right (and_iff_left hadmits).symm
  | error error =>
    have hoffer : tables.offer key file = tables := by rw [offer, henqueue, settle]
    rw [hoffer]
    refine ⟨.inl, ?_⟩
    rintro (hold | ⟨rfl, hadmits⟩)
    · exact hold
    · -- A number that is admitted is refused only if it is listed already.
      rw [← Bool.not_eq_false]
      intro hnew
      have hok := enqueue_eq_ok_iff.mpr ⟨hthere, .inr ⟨rfl, hnew, hadmits⟩⟩
      rw [hok] at henqueue
      cases henqueue

/-! ## Several queues -/

/-- The tables after a file was offered to one queue after the other. -/
def offerAll (tables : QueueTables) (keys : List QueueKey) (file : FileRef) : QueueTables :=
  keys.foldl (fun tables key ↦ tables.offer key file) tables

theorem offset?_offerAll (keys : List QueueKey) (file : FileRef) :
    (tables.offerAll keys file).offset? other = tables.offset? other := by
  unfold offerAll
  induction keys generalizing tables with
  | nil => rfl
  | cons first rest ih => rw [List.foldl_cons, ih, offset?_offer]

/-- A number that is admitted after it was offered was admitted before. -/
theorem Offered.again {seq : UInt64} (h : Offered key seq tables after)
    (hadmits : Admits (after.tailSeq? key) seq) : Admits (tables.tailSeq? key) seq := by
  rw [h.tailSeq?_eq] at hadmits
  intro last hlast
  rw [hlast, newer] at hadmits
  split at hadmits
  case isTrue hnew => exact hnew.1
  case isFalse => exact hadmits last rfl

theorem lists_offerAll (keys : List QueueKey) (hthere : (tables.offset? key).isSome = true)
    (file : FileRef) (seq : UInt64) :
    (tables.offerAll keys file).lists key seq = true ↔
      tables.lists key seq = true ∨
        (key ∈ keys ∧ seq = file.seq ∧ Admits (tables.tailSeq? key) file.seq) := by
  induction keys generalizing tables with
  | nil => simp [offerAll]
  | cons first rest ih =>
    have hstill : ((tables.offer first file).offset? key).isSome = true := by
      rw [offset?_offer]
      exact hthere
    have hunfold : tables.offerAll (first :: rest) file = (tables.offer first file).offerAll rest file :=
      rfl
    rw [hunfold, ih hstill]
    by_cases hfirst : first = key
    · subst hfirst
      have hoffered := offered_offer hthere file
      rw [hoffered.2]
      constructor
      · rintro ((hold | hnew) | ⟨-, hseq, hadmits⟩)
        · exact .inl hold
        · exact .inr ⟨List.mem_cons_self, hnew⟩
        · exact .inr ⟨List.mem_cons_self, hseq, hoffered.again hadmits⟩
      · rintro (hold | ⟨-, hnew⟩)
        · exact .inl (.inl hold)
        · exact .inl (.inr hnew)
    · have hfiles : (tables.offer first file).filesOf key = tables.filesOf key :=
        filesOf_offer_of_ne hfirst file
      rw [lists_iff_mem_filesOf, lists_iff_mem_filesOf, tailSeq?, tailSeq?, hfiles, List.mem_cons,
        or_iff_right (Ne.symm hfirst)]

theorem offered_offerAll {keys : List QueueKey} (hmem : key ∈ keys)
    (hthere : (tables.offset? key).isSome = true) (file : FileRef) :
    Offered key file.seq tables (tables.offerAll keys file) := by
  constructor
  · rw [offset?_offerAll]
  · intro seq
    rw [lists_offerAll keys hthere, and_iff_right hmem]

end LogShipping.QueueTables
