import LogShipping.Proofs.Queue.Pending

/-!
# The position of a queue

Advancing moves the offset of a queue and nothing else, and finishing takes its first file off and puts
the offset back to the start. A queue without files stands at the start in all tables that can arise.
-/

namespace LogShipping.QueueTables

variable {tables after : QueueTables} {key : QueueKey}

/-- The files of a queue are known by what is listed and their order. -/
theorem filesOf_eq_of_mem (wf : tables.WellFormed) {files : List FileRef}
    (hascending : files.Pairwise fun x y ↦ rank x.seq < rank y.seq)
    (hmem : ∀ file, file ∈ files ↔ (key, file) ∈ tables.files) : tables.filesOf key = files := by
  have hthere := wf.pairwise_filesOf_lt key
  have hdistinct {xs : List FileRef} (h : xs.Pairwise fun x y ↦ rank x.seq < rank y.seq) : xs.Nodup := by
    refine List.nodup_iff_pairwise_ne.mpr (h.imp ?_)
    rintro x y hlt rfl
    exact Int.lt_irrefl _ hlt
  have hperm : (tables.filesOf key).Perm files := by
    rw [List.perm_ext_iff_of_nodup (hdistinct hthere) (hdistinct hascending)]
    intro file
    rw [mem_filesOf, hmem]
  refine hperm.eq_of_pairwise ?_ hthere hascending
  intro x y _ _ hxy hyx
  omega

theorem get?_eq_some_iff {queue : Queue} :
    tables.get? key = some queue ↔
      ∃ offset, tables.offset? key = some offset ∧ queue = ⟨key, tables.filesOf key, offset⟩ := by
  rw [get?, Option.map_eq_some_iff]
  simp only [eq_comm]

/-- Under its new name a queue lists the files it did under the old one. -/
theorem filesOf_rename (wf : tables.WellFormed) (key : QueueKey) {target : QueueKey}
    (habsent : tables.offset? target = none) :
    (tables.rename key target).filesOf target = tables.filesOf key := by
  apply filesOf_eq_of_mem (wf.rename habsent) (wf.pairwise_filesOf_lt key)
  intro file
  have hnew : (target, file) ∉ tables.files := fun hrow ↦ by
    have hlists : tables.lists target file.seq = true := lists_iff.mpr ⟨file, hrow, rfl⟩
    rw [wf.not_lists habsent] at hlists
    cases hlists
  rw [mem_filesOf, rename, List.mem_map]
  constructor
  · exact fun hrow ↦ ⟨(key, file), hrow, if_pos rfl⟩
  · rintro ⟨⟨owner, moved⟩, hrow, hsame⟩
    by_cases howner : owner = key
    case pos =>
      rw [if_pos howner] at hsame
      cases hsame
      exact howner ▸ hrow
    case neg =>
      rw [if_neg howner] at hsame
      cases hsame
      exact absurd hrow hnew

theorem get?_rename (wf : tables.WellFormed) {target : QueueKey} {queue : Queue}
    (hqueue : tables.get? key = some queue) (habsent : tables.offset? target = none) :
    (tables.rename key target).get? target = some { queue with key := target } := by
  obtain ⟨offset, hoffset, rfl⟩ := get?_eq_some_iff.mp hqueue
  refine get?_eq_some_iff.mpr ⟨offset, ?_, by rw [filesOf_rename wf key habsent]⟩
  rw [offset?_rename habsent, if_pos rfl, hoffset]

/-- Advancing moves the offset within the first file. -/
theorem get?_of_advance {start : Nat} {target : LogPosition}
    (h : tables.advance key start target = .ok after) :
    ∃ queue, tables.get? key = some queue ∧ queue.head?.map (·.seq) = some target.seq ∧
      after.get? key = some { queue with offset := target.offset } := by
  obtain ⟨hhead, current, hcurrent, hway⟩ := advance_eq_ok_iff.mp h
  refine ⟨⟨key, tables.filesOf key, current⟩, get?_eq_some_iff.mpr ⟨current, hcurrent, rfl⟩, hhead, ?_⟩
  rcases hway with ⟨hsame, rfl⟩ | ⟨-, -, rfl⟩
  · rw [get?_eq_some_iff]
    exact ⟨target.offset, by rw [hcurrent, hsame], rfl⟩
  · rw [get?_eq_some_iff]
    refine ⟨target.offset, ?_, rfl⟩
    rw [offset?_setOffset, if_pos rfl, hcurrent]
    rfl

/-- Finishing takes the first file off. -/
theorem get?_of_finish (wf : tables.WellFormed) {seq : UInt64}
    (h : tables.finish key seq = .ok after) :
    ∃ head later offset, tables.get? key = some ⟨key, head :: later, offset⟩ ∧ head.seq = seq ∧
      after.get? key = some ⟨key, later, 0⟩ := by
  obtain ⟨hqueue, hhead, rfl⟩ := finish_eq_ok_iff.mp h
  obtain ⟨offset, hoffset⟩ := Option.isSome_iff_exists.mp hqueue
  obtain ⟨head, hfirst, hseq⟩ := Option.map_eq_some_iff.mp hhead
  obtain ⟨later, hfiles⟩ := List.head?_eq_some_iff.mp hfirst
  have hstrict := wf.pairwise_filesOf_lt key
  rw [hfiles, List.pairwise_cons] at hstrict
  have hlater : ((tables.removeFile key seq).setOffset key 0).filesOf key = later := by
    apply filesOf_eq_of_mem ((wf.removeFile key seq).setOffset key 0) hstrict.2
    intro file
    show _ ↔ (key, file) ∈ (tables.removeFile key seq).files
    simp only [removeFile, List.mem_filter, beq_self_eq_true, Bool.true_and, Bool.not_eq_true',
      beq_eq_false_iff_ne, ← mem_filesOf, hfiles, List.mem_cons]
    constructor
    · intro hmem
      refine ⟨.inr hmem, fun heq ↦ ?_⟩
      have hlt := hstrict.1 file hmem
      rw [hseq, heq] at hlt
      exact Int.lt_irrefl _ hlt
    · rintro ⟨rfl | hmem, hne⟩
      · exact absurd hseq hne
      · exact hmem
  refine ⟨head, later, offset, ?_, hseq, ?_⟩
  · rw [get?_eq_some_iff]
    exact ⟨offset, hoffset, by rw [hfiles]⟩
  · rw [get?_eq_some_iff]
    refine ⟨0, ?_, by rw [hlater]⟩
    rw [offset?_setOffset, if_pos rfl, offset?_removeFile, hoffset]
    rfl

/-! ## Queues without files -/

/-- Queues without files stand at the start. -/
def Fresh (tables : QueueTables) : Prop :=
  ∀ key offset, tables.offset? key = some offset → (∀ seq, tables.lists key seq = false) → offset = 0

namespace Fresh

/-- If an operation lists nothing less and moves no offset, queues without files stay at the start. -/
theorem of_le (hfresh : tables.Fresh) (hoffset : ∀ key, after.offset? key = tables.offset? key)
    (hlists : ∀ key seq, tables.lists key seq = true → after.lists key seq = true) : after.Fresh := by
  intro key offset hkey hempty
  rw [hoffset] at hkey
  apply hfresh key offset hkey
  intro seq
  rw [← Bool.not_eq_true]
  intro hlisted
  exact Bool.false_ne_true ((hempty seq).symm.trans (hlists key seq hlisted))

theorem create (hfresh : tables.Fresh) (key : QueueKey) (seed : Option (FileRef × Nat)) :
    (tables.create key seed).2.Fresh := by
  unfold QueueTables.create
  split
  case h_1 => exact hfresh
  case h_2 habsent =>
    have hrow (first other : QueueKey) (offset : Nat) (current : Nat)
        (hother : QueueTables.offset? { tables with offsets := tables.offsets ++ [(first, offset)] } other =
          some current) :
        tables.offset? other = some current ∨ (other = first ∧ current = offset) := by
      simp only [offset?, List.lookup_append] at hother ⊢
      cases hthere : tables.offsets.lookup other with
      | some there =>
        rw [hthere] at hother
        exact .inl hother
      | none =>
        rw [hthere, Option.none_or, lookup_row] at hother
        split at hother
        case isTrue hsame => exact .inr ⟨hsame, (Option.some.inj hother).symm⟩
        case isFalse => cases hother
    split
    case h_1 =>
      intro other current hother hempty
      rcases hrow key other 0 current hother with hthere | ⟨-, hzero⟩
      · exact hfresh other current hthere hempty
      · exact hzero
    case h_2 file offset =>
      intro other current hother hempty
      rw [offset?_addFile] at hother
      rcases hrow key other offset current hother with hthere | ⟨rfl, -⟩
      · apply hfresh other current hthere
        intro seq
        have hnot := hempty seq
        rw [lists_addFile, Bool.or_eq_false_iff] at hnot
        exact hnot.1
      · have hnot := hempty file.seq
        simp [lists_addFile] at hnot

theorem remove (hfresh : tables.Fresh) (key : QueueKey) : (tables.remove key).Fresh := by
  intro other offset hother hempty
  rw [offset?_remove] at hother
  split at hother
  case isTrue => cases hother
  case isFalse hne =>
    apply hfresh other offset hother
    intro seq
    have hnot := hempty seq
    rw [lists_remove, bne_iff_ne.mpr hne, Bool.and_true] at hnot
    exact hnot

theorem handOver (hfresh : tables.Fresh) (key : QueueKey) (newOwner : String) :
    (tables.settle (tables.handOver key newOwner)).Fresh := by
  apply settle_induction hfresh
  intro after hafter
  obtain ⟨offset, hoffset, ⟨habsent, rfl⟩ | ⟨there, hthere, -, rfl⟩⟩ := handOver_eq_ok_iff.mp hafter
  · intro other current hother hempty
    rw [offset?_rename habsent] at hother
    have hnot (seq : UInt64) := Bool.eq_false_iff.mp (hempty seq)
    simp only [ne_eq, lists_rename, not_or, not_and] at hnot
    split at hother
    case isTrue htarget =>
      exact hfresh key current hother fun seq ↦ Bool.eq_false_iff.mpr ((hnot seq).1 htarget)
    case isFalse =>
      split at hother
      case isTrue => cases hother
      case isFalse hkey =>
        exact hfresh other current hother fun seq ↦ Bool.eq_false_iff.mpr ((hnot seq).2 hkey)
  · generalize hinto : key.withOwner newOwner = into at hthere ⊢
    intro other current hother hempty
    by_cases hsource : other = key
    · rw [hsource, merge, offset?_remove, if_pos rfl] at hother
      cases hother
    · have hlists (seq : UInt64) (h : tables.lists other seq = true ∨
          (other = into ∧ tables.lists key seq = true)) : False := by
        refine Bool.false_ne_true ((hempty seq).symm.trans ?_)
        rw [merge, lists_remove, lists_setOffset, Bool.and_eq_true, bne_iff_ne]
        refine ⟨?_, hsource⟩
        rw [lists_foldl_addMissing, ← lists_iff_mem_filesOf]
        exact h
      by_cases hother' : other = into
      · subst hother'
        rw [offset?_merge (Ne.symm hsource) _ _ hthere] at hother
        have hkeyEmpty : tables.filesOf key = [] := by
          rw [List.eq_nil_iff_forall_not_mem]
          intro file hfile
          exact hlists file.seq (.inr ⟨rfl, lists_iff_mem_filesOf.mpr ⟨file, hfile, rfl⟩⟩)
        rw [hkeyEmpty] at hother
        obtain rfl : there = current := Option.some.inj hother
        refine hfresh other there hthere fun seq ↦ Bool.eq_false_iff.mpr fun h ↦ hlists seq (.inl h)
      · rw [merge, offset?_remove, if_neg hsource, offset?_setOffset, if_neg hother',
          offset?_foldl_addMissing] at hother
        exact hfresh other current hother fun seq ↦ Bool.eq_false_iff.mpr fun h ↦ hlists seq (.inl h)

theorem apply (hfresh : tables.Fresh) (operation : Operation) : (tables.apply operation).Fresh := by
  cases operation with
  | create key seed => exact hfresh.create key seed
  | enqueue key file =>
    apply settle_induction hfresh
    intro after hafter
    obtain ⟨-, ⟨-, rfl⟩ | ⟨rfl, -, -⟩⟩ := enqueue_eq_ok_iff.mp hafter
    · exact hfresh
    · refine hfresh.of_le (fun other ↦ rfl) fun other seq hlisted ↦ ?_
      rw [lists_addFile, hlisted, Bool.true_or]
  | advance key start target =>
    apply settle_induction hfresh
    intro after hafter
    obtain ⟨hhead, current, -, ⟨-, rfl⟩ | ⟨-, -, rfl⟩⟩ := advance_eq_ok_iff.mp hafter
    · exact hfresh
    · intro other offset hother hempty
      rw [offset?_setOffset] at hother
      split at hother
      case isTrue hsame =>
        have hlisted := (headSeq?_eq_some_iff.mp hhead).1
        rw [← hsame, ← lists_setOffset tables key other target.seq target.offset, hempty] at hlisted
        cases hlisted
      case isFalse => exact hfresh other offset hother hempty
  | finish key seq =>
    apply settle_induction hfresh
    intro after hafter
    obtain ⟨-, -, rfl⟩ := finish_eq_ok_iff.mp hafter
    intro other offset hother hempty
    rw [offset?_setOffset] at hother
    split at hother
    case isTrue =>
      obtain ⟨_, -, hzero⟩ := Option.map_eq_some_iff.mp hother
      exact hzero.symm
    case isFalse hne =>
      apply hfresh other offset hother
      intro number
      have hnot := hempty number
      rw [lists_setOffset, lists_removeFile, beq_eq_false_iff_ne.mpr hne, Bool.false_and, Bool.not_false,
        Bool.and_true] at hnot
      exact hnot
  | handOver key newOwner => exact hfresh.handOver key newOwner
  | drop key => exact hfresh.remove key

theorem run (operations : List Operation) (hfresh : tables.Fresh) :
    (tables.run operations).Fresh :=
  run_induction hfresh fun _ hfresh operation _ ↦ hfresh.apply operation

end Fresh

theorem Reachable.fresh (h : tables.Reachable) : tables.Fresh := by
  obtain ⟨operations, rfl⟩ := h
  apply Fresh.run operations
  intro key offset hkey
  cases hkey

end LogShipping.QueueTables
