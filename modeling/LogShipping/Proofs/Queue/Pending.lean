import LogShipping.Proofs.Queue.Reachable

/-!
# What a queue still has to ship

Pending on a queue are the octets of its first file from the offset on, and all octets of the files
behind it. On well formed tables a position is pending exactly if its file is listed and, where that is
the first one, the offset does not lie behind it. From this follows what each operation takes away:
advancing takes what lies before the new offset, finishing takes the first file, and a transfer takes
nothing.
-/

namespace LogShipping

/-- The octet at a position is still to be shipped. -/
def Queue.Pending (queue : Queue) (position : LogPosition) : Prop :=
  match queue.files with
  | [] => False
  | head :: later =>
    (position.seq = head.seq ∧ queue.offset ≤ position.offset) ∨
      ∃ file ∈ later, file.seq = position.seq

instance (queue : Queue) (position : LogPosition) : Decidable (queue.Pending position) := by
  unfold Queue.Pending
  exact match queue.files with
    | [] => .isFalse id
    | _ :: _ => inferInstance

namespace QueueTables

/-- The octet at a position is still to be shipped on a queue that exists. -/
def Pending (tables : QueueTables) (key : QueueKey) (position : LogPosition) : Prop :=
  match tables.get? key with
  | none => False
  | some queue => queue.Pending position

variable {tables after : QueueTables} {key : QueueKey} {position : LogPosition}

theorem get?_isSome : (tables.get? key).isSome = (tables.offset? key).isSome := by
  rw [get?, Option.isSome_map]

theorem get?_eq_none_iff : tables.get? key = none ↔ tables.offset? key = none := by
  rw [get?, Option.map_eq_none_iff]

/-- Pending as seen through the offset and the listed numbers. -/
theorem pending_iff (wf : tables.WellFormed) :
    tables.Pending key position ↔
      ∃ offset, tables.offset? key = some offset ∧ tables.lists key position.seq = true ∧
        (tables.headSeq? key = some position.seq → offset ≤ position.offset) := by
  have hstrict := wf.pairwise_filesOf_lt key
  cases hoffset : tables.offset? key with
  | none => simp [Pending, get?, hoffset]
  | some offset =>
    simp only [Pending, get?, hoffset, Option.map_some, Queue.Pending, lists_iff_mem_filesOf, headSeq?,
      Option.some.injEq, exists_eq_left']
    cases hfiles : tables.filesOf key with
    | nil => simp
    | cons head later =>
      rw [hfiles, List.pairwise_cons] at hstrict
      simp only [List.mem_cons, exists_eq_or_imp, List.head?_cons, Option.map_some, Option.some.injEq]
      constructor
      · rintro (⟨hseq, hle⟩ | ⟨file, hmem, hseq⟩)
        · exact ⟨.inl hseq.symm, fun _ ↦ hle⟩
        · refine ⟨.inr ⟨file, hmem, hseq⟩, fun hhead ↦ ?_⟩
          have hlater := hstrict.1 file hmem
          rw [hhead, hseq] at hlater
          exact absurd hlater (Int.lt_irrefl _)
      · rintro ⟨hseq | hlater, hle⟩
        · exact .inl ⟨hseq.symm, hle hseq⟩
        · exact .inr hlater

/-! ## Advancing and finishing -/

theorem headSeq?_setOffset (offset : Nat) (other : QueueKey) :
    (tables.setOffset key offset).headSeq? other = tables.headSeq? other := rfl

/-- Advancing takes the octets before the new offset, and no others. -/
theorem pending_of_advance (wf : tables.WellFormed) {start : Nat} {target : LogPosition}
    (h : tables.advance key start target = .ok after) :
    after.Pending key position ↔
      tables.Pending key position ∧
        (position.seq = target.seq → target.offset ≤ position.offset) := by
  obtain ⟨hhead, current, hcurrent, ⟨hsame, rfl⟩ | ⟨hlater, -, rfl⟩⟩ := advance_eq_ok_iff.mp h
  · constructor
    · intro hpending
      obtain ⟨offset, hoffset, -, hle⟩ := (pending_iff wf).mp hpending
      refine ⟨hpending, fun hseq ↦ ?_⟩
      obtain rfl : current = offset := Option.some.inj (hcurrent.symm.trans hoffset)
      rw [hsame]
      exact hle (hseq ▸ hhead)
    · exact And.left
  · rw [pending_iff (wf.setOffset key target.offset), pending_iff wf, headSeq?_setOffset,
      lists_setOffset, offset?_setOffset, if_pos rfl, hcurrent, hhead]
    simp only [Option.map_some, Option.some.injEq, exists_eq_left']
    constructor
    · rintro ⟨hlisted, hle⟩
      refine ⟨⟨hlisted, fun hseq ↦ ?_⟩, fun hseq ↦ hle hseq.symm⟩
      have := hle hseq
      omega
    · rintro ⟨⟨hlisted, -⟩, hle⟩
      exact ⟨hlisted, fun hseq ↦ hle hseq.symm⟩

/-- Finishing takes the first file, and leaves every later one pending from its start. -/
theorem pending_of_finish (wf : tables.WellFormed) {seq : UInt64}
    (h : tables.finish key seq = .ok after) :
    after.Pending key position ↔ tables.lists key position.seq = true ∧ position.seq ≠ seq := by
  obtain ⟨hqueue, -, rfl⟩ := finish_eq_ok_iff.mp h
  obtain ⟨offset, hoffset⟩ := Option.isSome_iff_exists.mp hqueue
  rw [pending_iff ((wf.removeFile key seq).setOffset key 0), lists_setOffset, offset?_setOffset,
    if_pos rfl, offset?_removeFile, hoffset, lists_removeFile]
  simp

/-! ## Handing over -/

/-- A queue that gets a new name keeps what is pending. -/
theorem pending_rename (wf : tables.WellFormed) {target : QueueKey}
    (habsent : tables.offset? target = none) :
    (tables.rename key target).Pending target position ↔ tables.Pending key position := by
  have hlists (seq : UInt64) :
      (tables.rename key target).lists target seq = true ↔ tables.lists key seq = true := by
    rw [lists_rename]
    have hnone := wf.not_lists habsent seq
    simp [hnone]
  have hhead : (tables.rename key target).headSeq? target = some position.seq ↔
      tables.headSeq? key = some position.seq := by
    simp only [headSeq?_eq_some_iff, hlists]
  rw [pending_iff (wf.rename habsent), pending_iff wf, offset?_rename habsent, if_pos rfl]
  simp only [hlists, hhead]

theorem lists_merge {source into : QueueKey} (hne : source ≠ into) (sourceOffset intoOffset : Nat)
    (seq : UInt64) :
    (tables.merge source sourceOffset into intoOffset).lists into seq = true ↔
      tables.lists into seq = true ∨ tables.lists source seq = true := by
  have hsource : tables.lists source seq = true ↔ ∃ file ∈ tables.filesOf source, file.seq = seq :=
    lists_iff_mem_filesOf
  rw [hsource, merge, lists_remove, lists_setOffset, Bool.and_eq_true, bne_iff_ne,
    lists_foldl_addMissing]
  simp only [ne_eq, Ne.symm hne, not_false_eq_true, and_true, true_and]

theorem offset?_merge {source into : QueueKey} (hne : source ≠ into) (sourceOffset intoOffset : Nat)
    (hinto : tables.offset? into = some intoOffset) :
    (tables.merge source sourceOffset into intoOffset).offset? into =
      some (mergedOffset (tables.filesOf source).head? (tables.filesOf into).head? sourceOffset
        intoOffset) := by
  simp only [merge, offset?_remove, if_neg (Ne.symm hne), offset?_setOffset, if_true,
    offset?_foldl_addMissing, hinto, Option.map_some]

/-- The offset of a merged queue does not lie behind that of either queue in the file that is the first
of the merged one. -/
theorem mergedOffset_le {source into : Option FileRef} {sourceOffset intoOffset : Nat} :
    (∀ x, source = some x → (∀ y, into = some y → rank x.seq ≤ rank y.seq) →
      mergedOffset source into sourceOffset intoOffset ≤ sourceOffset) ∧
    (∀ y, into = some y → (∀ x, source = some x → rank y.seq ≤ rank x.seq) →
      mergedOffset source into sourceOffset intoOffset ≤ intoOffset) := by
  constructor
  · rintro x rfl hle
    cases into with
    | none => exact Nat.le_refl _
    | some y =>
      simp only [mergedOffset, toInt64_lt_iff]
      have hxy := hle y rfl
      split
      case isTrue => exact Nat.min_le_left _ _
      split
      case isTrue => exact Nat.le_refl _
      case isFalse hne hnot => exact absurd (rank_injective (by omega)) hne
  · rintro y rfl hle
    cases source with
    | none => exact Nat.le_refl _
    | some x =>
      simp only [mergedOffset, toInt64_lt_iff]
      have hyx := hle x rfl
      split
      case isTrue => exact Nat.min_le_right _ _
      split
      case isTrue hne hlt => omega
      case isFalse => exact Nat.le_refl _

/-- What is pending on either of two queues is pending on the one they are merged into. -/
theorem pending_merge (wf : tables.WellFormed) {source into : QueueKey} (hne : source ≠ into)
    {sourceOffset intoOffset : Nat} (hsource : tables.offset? source = some sourceOffset)
    (hinto : tables.offset? into = some intoOffset)
    (hpending : tables.Pending source position ∨ tables.Pending into position) :
    (tables.merge source sourceOffset into intoOffset).Pending into position := by
  have hmerged : (tables.merge source sourceOffset into intoOffset).WellFormed :=
    wf.merge _ _ (by rw [hinto]; rfl)
  rw [pending_iff hmerged, offset?_merge hne _ _ hinto, headSeq?_eq_some_iff]
  simp only [lists_merge hne]
  refine ⟨_, rfl, ?_, ?_⟩
  · rcases hpending with hpending | hpending
    · obtain ⟨_, -, hlisted, -⟩ := (pending_iff wf).mp hpending
      exact .inr hlisted
    · obtain ⟨_, -, hlisted, -⟩ := (pending_iff wf).mp hpending
      exact .inl hlisted
  -- The position lies in the first file of the merged queue. So that is the first file of the queue it
  -- was pending on, and does not come after the first file of the other one.
  · rintro ⟨-, hleast⟩
    rcases hpending with hpending | hpending
    · obtain ⟨offset, hoffset, hlisted, hle⟩ := (pending_iff wf).mp hpending
      obtain rfl : sourceOffset = offset := Option.some.inj (hsource.symm.trans hoffset)
      have hhead : tables.headSeq? source = some position.seq :=
        headSeq?_eq_some_iff.mpr ⟨hlisted, fun other h ↦ hleast other (.inr h)⟩
      obtain ⟨x, hx, hseq⟩ := Option.map_eq_some_iff.mp hhead
      refine Nat.le_trans (mergedOffset_le.1 x hx fun y hy ↦ ?_) (hle hhead)
      rw [hseq]
      exact hleast y.seq (.inl (lists_iff_mem_filesOf.mpr ⟨y, List.mem_of_head? hy, rfl⟩))
    · obtain ⟨offset, hoffset, hlisted, hle⟩ := (pending_iff wf).mp hpending
      obtain rfl : intoOffset = offset := Option.some.inj (hinto.symm.trans hoffset)
      have hhead : tables.headSeq? into = some position.seq :=
        headSeq?_eq_some_iff.mpr ⟨hlisted, fun other h ↦ hleast other (.inl h)⟩
      obtain ⟨y, hy, hseq⟩ := Option.map_eq_some_iff.mp hhead
      refine Nat.le_trans (mergedOffset_le.2 y hy fun x hx ↦ ?_) (hle hhead)
      rw [hseq]
      exact hleast x.seq (.inr (lists_iff_mem_filesOf.mpr ⟨x, List.mem_of_head? hx, rfl⟩))

end QueueTables

end LogShipping
