import LogShipping.Proofs.Queue.Atomicity
import LogShipping.Proofs.Queue.Representation
import LogShipping.Proofs.Queue.Transfer

/-!
# Folding a recovered queue into its origin's own

An origin that is back takes over what another node recovered from it and left behind. Its own queue then
lists the files of both, each number once and under its own path where it had one, and stands where the
queue with the older first file stood. The recovered queue is gone, every other queue is as it was, and what
was pending on either of the two is pending on the one that is left.
-/

namespace LogShipping

/-- What an origin's own queue is once the recovered one is folded into it. -/
structure Queue.Folded (recovered own merged : Queue) : Prop where
  key : merged.key = own.key
  ascending : merged.files.Pairwise fun x y ↦ x.seq < y.seq
  /-- The files are those of both queues, where a shared number keeps its own path. -/
  mem_files : ∀ file, file ∈ merged.files ↔
    file ∈ own.files ∨ (file ∈ recovered.files ∧ ∀ other ∈ own.files, other.seq ≠ file.seq)
  recovered_first : ∀ x y, recovered.head? = some x → own.head? = some y → x.seq < y.seq →
    merged.offset = recovered.offset
  own_first : ∀ x y, recovered.head? = some x → own.head? = some y → y.seq < x.seq →
    merged.offset = own.offset
  shared_first : ∀ x y, recovered.head? = some x → own.head? = some y → x.seq = y.seq →
    merged.offset = min recovered.offset own.offset
  nothing_recovered : recovered.files = [] → merged.offset = own.offset
  nothing_own : own.files = [] → merged.offset = recovered.offset

namespace QueueTables

variable {tables after : QueueTables} {key source into : QueueKey} {file : FileRef}

/-! ## The files of both -/

theorem mem_addMissing {row : QueueKey × FileRef} :
    row ∈ (tables.addMissing key file).files ↔
      row ∈ tables.files ∨ (row = (key, file) ∧ tables.lists key file.seq = false) := by
  unfold addMissing
  split
  case isTrue hthere => simp [hthere]
  case isFalse hmissing =>
    rw [addFile, List.mem_append, List.mem_singleton, Bool.not_eq_true _ |>.mp hmissing, and_iff_left rfl]

/-- Files of different numbers are added one by one, each unless its number was there at the beginning. -/
theorem mem_foldl_addMissing {files : List FileRef} (hdistinct : files.Pairwise fun x y ↦ x.seq ≠ y.seq)
    {row : QueueKey × FileRef} :
    row ∈ (files.foldl (fun tables file ↦ tables.addMissing key file) tables).files ↔
      row ∈ tables.files ∨ (row.1 = key ∧ row.2 ∈ files ∧ tables.lists key row.2.seq = false) := by
  induction files generalizing tables with
  | nil => simp
  | cons first rest ih =>
    obtain ⟨hfirst, hrest⟩ := List.pairwise_cons.mp hdistinct
    obtain ⟨owner, file⟩ := row
    rw [List.foldl_cons, ih hrest, mem_addMissing, List.mem_cons, Prod.mk.injEq]
    have hlists (hmem : file ∈ rest) :
        (tables.addMissing key first).lists key file.seq = tables.lists key file.seq := by
      rw [lists_addMissing, beq_eq_false_iff_ne.mpr (hfirst file hmem), Bool.and_false, Bool.or_false]
    constructor
    · rintro ((hold | ⟨⟨rfl, rfl⟩, hnew⟩) | ⟨hkey, hmem, hnew⟩)
      · exact .inl hold
      · exact .inr ⟨rfl, .inl rfl, hnew⟩
      · exact .inr ⟨hkey, .inr hmem, hlists hmem ▸ hnew⟩
    · rintro (hold | ⟨hkey, rfl | hmem, hnew⟩)
      · exact .inl (.inl hold)
      · exact .inl (.inr ⟨⟨hkey, rfl⟩, hnew⟩)
      · exact .inr ⟨hkey, hmem, (hlists hmem).trans hnew⟩

theorem mem_filesOf_merge (wf : tables.WellFormed) (hne : source ≠ into) (sourceOffset intoOffset : Nat) :
    file ∈ (tables.merge source sourceOffset into intoOffset).filesOf into ↔
      file ∈ tables.filesOf into ∨
        (file ∈ tables.filesOf source ∧ ∀ other ∈ tables.filesOf into, other.seq ≠ file.seq) := by
  have hdistinct : (tables.filesOf source).Pairwise fun x y ↦ x.seq ≠ y.seq := by
    refine (wf.pairwise_filesOf_lt source).imp fun hlt hsame ↦ ?_
    rw [hsame] at hlt
    exact Int.lt_irrefl _ hlt
  have hmissing : tables.lists into file.seq = false ↔ ∀ other ∈ tables.filesOf into, other.seq ≠ file.seq := by
    rw [← Bool.not_eq_true, lists_iff_mem_filesOf]
    simp only [not_exists, not_and, ne_eq]
  rw [mem_filesOf, merge, remove, List.mem_filter, and_iff_left (bne_iff_ne.mpr hne.symm)]
  show (into, file) ∈ (List.foldl _ tables (tables.filesOf source)).files ↔ _
  rw [mem_foldl_addMissing hdistinct, ← mem_filesOf, and_iff_right rfl, hmissing]

/-! ## The queue that is left -/

theorem folded_of_merge (wf : tables.WellFormed) (hfresh : tables.Fresh) (hsmall : tables.AllFiles Small)
    (hne : source ≠ into) {recovered own : Queue} (hsource : tables.get? source = some recovered)
    (hinto : tables.get? into = some own) :
    ∃ merged,
      (tables.merge source recovered.offset into own.offset).get? into = some merged ∧
        Queue.Folded recovered own merged := by
  obtain ⟨sourceOffset, hsourceOffset, rfl⟩ := get?_eq_some_iff.mp hsource
  obtain ⟨intoOffset, hintoOffset, rfl⟩ := get?_eq_some_iff.mp hinto
  have hthere : (tables.offset? into).isSome = true := by rw [hintoOffset]; rfl
  have hwf : (tables.merge source sourceOffset into intoOffset).WellFormed := wf.merge _ _ hthere
  have hrank (listed : QueueKey) (file : FileRef) (hhead : (tables.filesOf listed).head? = some file) :
      rank file.seq = file.seq.toNat :=
    rank_eq_toNat (hsmall (listed, file) (mem_filesOf.mp (List.mem_of_head? hhead)))
  have hlt {x y : FileRef} (hx : (tables.filesOf source).head? = some x)
      (hy : (tables.filesOf into).head? = some y) : x.seq.toInt64 < y.seq.toInt64 ↔ x.seq < y.seq := by
    rw [toInt64_lt_iff, hrank source x hx, hrank into y hy, Int.ofNat_lt, UInt64.lt_iff_toNat_lt]
  refine ⟨_, get?_eq_some_iff.mpr ⟨_, offset?_merge hne _ _ hintoOffset, rfl⟩, ?_⟩
  constructor
  case key => rfl
  case ascending => exact hwf.pairwise_filesOf_of_small (hsmall.merge _ _ _ _) into
  case mem_files => exact fun file ↦ mem_filesOf_merge wf hne _ _
  case recovered_first =>
    intro x y (hx : (tables.filesOf source).head? = some x) (hy : (tables.filesOf into).head? = some y) hxy
    simp only [hx, hy, mergedOffset, if_neg (UInt64.ne_of_lt hxy), if_pos ((hlt hx hy).mpr hxy)]
  case own_first =>
    intro x y (hx : (tables.filesOf source).head? = some x) (hy : (tables.filesOf into).head? = some y) hyx
    have hnot : ¬x.seq < y.seq := fun hxy ↦ UInt64.lt_irrefl _ (UInt64.lt_trans hxy hyx)
    simp only [hx, hy, mergedOffset, if_neg (UInt64.ne_of_lt hyx).symm, if_neg (mt (hlt hx hy).mp hnot)]
  case shared_first =>
    intro x y (hx : (tables.filesOf source).head? = some x) (hy : (tables.filesOf into).head? = some y) hxy
    simp only [hx, hy, mergedOffset, if_pos hxy]
  case nothing_recovered =>
    intro (hnone : tables.filesOf source = [])
    simp only [hnone, List.head?_nil, mergedOffset]
  case nothing_own =>
    intro (hnone : tables.filesOf into = [])
    cases hfiles : tables.filesOf source with
    | cons file rest => simp only [hnone, List.head?_cons, List.head?_nil, mergedOffset]
    | nil =>
      -- Without any file both queues stand at the start.
      have hown := hfresh into intoOffset hintoOffset (lists_eq_false_of_filesOf_eq_nil hnone)
      have hrecovered := hfresh source sourceOffset hsourceOffset (lists_eq_false_of_filesOf_eq_nil hfiles)
      simp only [List.head?_nil, mergedOffset, hown, hrecovered]

theorem pending_eq {queue : Queue} (hqueue : tables.get? key = some queue) :
    tables.Pending key = queue.Pending := by
  funext position
  rw [Pending, hqueue]

end QueueTables

namespace QueueStore

variable {database : Database} {membership : Membership} {key : QueueKey} {newOwner : String}

/-- A transfer that the tables allow is carried out if its owner is reported dead both times. -/
theorem transfer_of_handOver (hup : database.reachable = true)
    (hdead : (membership.isAlive key.owner).1 = false)
    (hstill : ((membership.isAlive key.owner).2.isAlive key.owner).1 = false) {after : QueueTables}
    (hover : database.queues.handOver key newOwner = .ok after) :
    transfer database membership key newOwner =
      (⟨.ok (key.withOwner newOwner), database.withQueues after,
        [.transferred key (key.withOwner newOwner)]⟩,
        ((membership.isAlive key.owner).2.isAlive key.owner).2) := by
  rw [transfer_eq]
  simp only [hdead, hstill, hover, hup, if_true, Bool.false_eq_true, if_false]

/-- To hand a queue over touches none but the two it names. -/
theorem get?_handOver_of_ne {tables after : QueueTables} (hover : tables.handOver key newOwner = .ok after)
    {other : QueueKey} (hkey : other ≠ key) (htarget : other ≠ key.withOwner newOwner) :
    after.get? other = tables.get? other := by
  let database : Database := { Database.empty with queues := tables }
  have htransfer := @transfer_of_handOver database .empty _ _ rfl rfl rfl _ hover
  have hnamed : other ∉ (Call.transfer .empty key newOwner).keys :=
    List.not_mem_cons_of_ne_of_not_mem hkey (List.not_mem_cons_of_ne_of_not_mem htarget List.not_mem_nil)
  have hkept := get?_serve_of_not_mem database _ hnamed
  rw [serve, Reply.effect, htransfer] at hkept
  exact hkept

/-- The recovered queue of a dead owner is folded into the queue that its origin has of its own. -/
theorem folded_of_transfer (hreach : database.queues.Reachable)
    (hsmall : database.queues.AllFiles QueueTables.Small)
    (hup : database.reachable = true) (hrecovered : key.isRecovered = true)
    (hdead : (membership.isAlive key.owner).1 = false)
    (hstill : ((membership.isAlive key.owner).2.isAlive key.owner).1 = false) {recovered own : Queue}
    (hkey : database.queues.get? key = some recovered)
    (hown : database.queues.get? (.own key.origin key.peer) = some own) :
    ∃ after merged,
      (transfer database membership key key.origin).1 =
          ⟨.ok (.own key.origin key.peer), database.withQueues after,
            [.transferred key (.own key.origin key.peer)]⟩ ∧
        after.get? (.own key.origin key.peer) = some merged ∧
        Queue.Folded recovered own merged ∧
        (∀ position, recovered.Pending position ∨ own.Pending position → merged.Pending position) ∧
        after.get? key = none ∧
        ∀ other, other ≠ key → other ≠ .own key.origin key.peer →
          after.get? other = database.queues.get? other := by
  have wf := hreach.wellFormed
  have hne : key ≠ .own key.origin key.peer := by
    intro hself
    rw [QueueKey.isRecovered, bne_iff_ne] at hrecovered
    exact hrecovered (congrArg QueueKey.owner hself)
  obtain ⟨offset, hoffset, rfl⟩ := QueueTables.get?_eq_some_iff.mp hkey
  obtain ⟨there, hthere, rfl⟩ := QueueTables.get?_eq_some_iff.mp hown
  have hover : database.queues.handOver key key.origin =
      .ok (database.queues.merge key offset (.own key.origin key.peer) there) :=
    QueueTables.handOver_eq_ok_iff.mpr ⟨offset, hoffset, .inr ⟨there, hthere, rfl, rfl⟩⟩
  have htransfer := transfer_of_handOver hup hdead hstill hover
  obtain ⟨merged, hmerged, hfolded⟩ := QueueTables.folded_of_merge wf hreach.fresh hsmall hne hkey hown
  refine ⟨_, merged, congrArg Prod.fst htransfer, hmerged, hfolded, ?_, ?_, ?_⟩
  · intro position hpending
    rw [← QueueTables.pending_eq hkey, ← QueueTables.pending_eq hown] at hpending
    rw [← QueueTables.pending_eq hmerged]
    exact QueueTables.pending_merge wf hne hoffset hthere hpending
  · exact QueueTables.get?_eq_none_iff.mpr (QueueTables.offset?_of_handOver hover)
  · exact fun other hkey htarget ↦ get?_handOver_of_ne hover hkey htarget

/-- Node "rs-1" is back and has begun a queue of its own, where file 4 has another path. -/
def backAgain : Database :=
  { Database.empty with
    queues := .run .empty
      [.create ⟨"rs-2", "2", "rs-1"⟩ (some (⟨3, "old/rs-1.0000000003.wal"⟩, 50)),
        .enqueue ⟨"rs-2", "2", "rs-1"⟩ ⟨4, "old/rs-1.0000000004.wal"⟩,
        .create (.own "rs-1" "2") (some (⟨4, "rs-1.0000000004.wal"⟩, 200)),
        .enqueue (.own "rs-1" "2") ⟨5, "rs-1.0000000005.wal"⟩] }

/-- The two queues share file 4, and the recovered one is behind. -/
theorem folded_of_transfer_overlapping :
    backAgain.queues.Reachable ∧ backAgain.queues.AllFiles QueueTables.Small ∧
      (transfer backAgain .empty ⟨"rs-2", "2", "rs-1"⟩ "rs-1").1.answer = .ok (.own "rs-1" "2") ∧
      (transfer backAgain .empty ⟨"rs-2", "2", "rs-1"⟩ "rs-1").1.database.queues.get? (.own "rs-1" "2") =
        some ⟨.own "rs-1" "2", [⟨3, "old/rs-1.0000000003.wal"⟩, ⟨4, "rs-1.0000000004.wal"⟩,
          ⟨5, "rs-1.0000000005.wal"⟩], 50⟩ ∧
      (transfer backAgain .empty ⟨"rs-2", "2", "rs-1"⟩ "rs-1").1.database.queues.get? ⟨"rs-2", "2", "rs-1"⟩ =
        none := by
  have hsmall : backAgain.queues.AllFiles QueueTables.Small := by
    unfold QueueTables.AllFiles QueueTables.Small
    decide +kernel
  have hthere : backAgain.queues.filesOf ⟨"rs-2", "2", "rs-1"⟩ =
      [⟨3, "old/rs-1.0000000003.wal"⟩, ⟨4, "old/rs-1.0000000004.wal"⟩] :=
    QueueTables.filesOf_eq_of_perm (by decide +kernel) (by decide)
  have hhere : backAgain.queues.filesOf (.own "rs-1" "2") =
      [⟨4, "rs-1.0000000004.wal"⟩, ⟨5, "rs-1.0000000005.wal"⟩] :=
    QueueTables.filesOf_eq_of_perm (by decide +kernel) (by decide)
  have hrecovered : backAgain.queues.offset? ⟨"rs-2", "2", "rs-1"⟩ = some 50 := by decide +kernel
  have hown : backAgain.queues.offset? (.own "rs-1" "2") = some 200 := by decide +kernel
  obtain ⟨after, _, htransfer, -, -, -, hgone, -⟩ :=
    @folded_of_transfer backAgain .empty ⟨"rs-2", "2", "rs-1"⟩ ⟨_, rfl⟩ hsmall rfl rfl rfl rfl _ _
      (QueueTables.get?_eq_some_iff.mpr ⟨50, hrecovered, rfl⟩) (QueueTables.get?_eq_some_iff.mpr ⟨200, hown, rfl⟩)
  have hafter : (transfer backAgain .empty ⟨"rs-2", "2", "rs-1"⟩ "rs-1").1.database.queues = after :=
    congrArg (·.database.queues) htransfer
  refine ⟨⟨_, rfl⟩, hsmall, congrArg Reply.answer htransfer, ?_, hafter ▸ hgone⟩
  have hover : backAgain.queues.handOver ⟨"rs-2", "2", "rs-1"⟩ "rs-1" =
      .ok (backAgain.queues.merge ⟨"rs-2", "2", "rs-1"⟩ 50 (.own "rs-1" "2") 200) :=
    QueueTables.handOver_eq_ok_iff.mpr ⟨50, hrecovered, .inr ⟨200, hown, rfl, rfl⟩⟩
  have hmerge : backAgain.queues.merge ⟨"rs-2", "2", "rs-1"⟩ 50 (.own "rs-1" "2") 200 =
      ⟨[(.own "rs-1" "2", 50)],
        [(.own "rs-1" "2", ⟨4, "rs-1.0000000004.wal"⟩), (.own "rs-1" "2", ⟨5, "rs-1.0000000005.wal"⟩),
          (.own "rs-1" "2", ⟨3, "old/rs-1.0000000003.wal"⟩)]⟩ := by
    rw [QueueTables.merge, hthere, hhere]
    decide +kernel
  rw [transfer_of_handOver rfl rfl rfl hover]
  show QueueTables.get? (backAgain.queues.merge ⟨"rs-2", "2", "rs-1"⟩ 50 (.own "rs-1" "2") 200) _ = _
  rw [hmerge]
  exact QueueTables.get?_eq_some_iff.mpr
    ⟨50, rfl, congrArg (Queue.mk _ · 50) (QueueTables.filesOf_eq_of_perm (by decide) (by decide)).symm⟩

end QueueStore

end LogShipping
