import LogShipping.Proofs.Queue.Offering
import LogShipping.Proofs.Queue.Representation

/-!
# Where a queue stands in the log

An operation on one queue leaves every other one as it is. A queue that stands at some place of the log, or
behind it, does not come in front of that place again as long as it is not emptied: files are listed behind
those that are there, the offset only grows, and the file that is taken off leaves a later one first.
-/

namespace LogShipping

/-- The place is the mark, or comes behind it. -/
def LogPosition.Behind (place mark : LogPosition) : Prop :=
  mark.seq < place.seq ∨ (place.seq = mark.seq ∧ mark.offset ≤ place.offset)

namespace LogPosition.Behind

variable {place mark : LogPosition}

theorem refl (mark : LogPosition) : mark.Behind mark := .inr ⟨rfl, Nat.le_refl _⟩

/-- Further on in the same file. -/
theorem of_le (h : place.Behind mark) {offset : Nat} (hle : place.offset ≤ offset) :
    Behind ⟨place.seq, offset⟩ mark :=
  h.imp id fun hsame ↦ ⟨hsame.1, Nat.le_trans hsame.2 hle⟩

/-- In a later file. -/
theorem of_lt (h : place.Behind mark) {seq : UInt64} (hlt : place.seq < seq) (offset : Nat) :
    Behind ⟨seq, offset⟩ mark := by
  rcases h with hlater | ⟨hsame, -⟩
  · exact .inl (UInt64.lt_trans hlater hlt)
  · exact .inl (hsame ▸ hlt)

end LogPosition.Behind

namespace QueueTables

variable {tables after : QueueTables} {key other : QueueKey} {mark : LogPosition} {file : FileRef}
  {first : UInt64}

/-! ## The other queues -/

/-- The queue that an operation is about, if it is about one only. -/
def Operation.subject? : Operation → Option QueueKey
  | .create key _ | .enqueue key _ | .advance key _ _ | .finish key _ | .drop key => some key
  | .handOver .. => none

/-- The queue looks the same. -/
structure Same (key : QueueKey) (tables after : QueueTables) : Prop where
  offset : after.offset? key = tables.offset? key
  lists : ∀ seq, after.lists key seq = tables.lists key seq

theorem Same.refl (key : QueueKey) (tables : QueueTables) : Same key tables tables := ⟨rfl, fun _ ↦ rfl⟩

theorem Same.headSeq? (h : Same key tables after) : after.headSeq? key = tables.headSeq? key := by
  apply Option.ext
  intro seq
  simp only [headSeq?_eq_some_iff, h.lists]

theorem same_addFile (hne : key ≠ other) (file : FileRef) : Same key tables (tables.addFile other file) := by
  refine ⟨rfl, fun seq ↦ ?_⟩
  rw [lists_addFile, beq_eq_false_iff_ne.mpr (Ne.symm hne), Bool.false_and, Bool.or_false]

theorem same_setOffset (hne : key ≠ other) (offset : Nat) :
    Same key tables (tables.setOffset other offset) :=
  ⟨by rw [offset?_setOffset, if_neg hne], fun _ ↦ rfl⟩

theorem same_of_ne {operation : Operation} (hok : tables.perform operation = .ok after)
    (hsubject : operation.subject? = some other) (hne : key ≠ other) : Same key tables after := by
  cases operation with
  | create created seed =>
    obtain rfl := Option.some.inj hsubject
    cases hok
    refine ⟨offset?_create_of_ne hne seed, fun seq ↦ ?_⟩
    unfold create
    split
    case h_1 => rfl
    case h_2 =>
      split
      case h_1 => rfl
      case h_2 file offset => exact (same_addFile hne file).lists seq
  | enqueue listed file =>
    obtain rfl := Option.some.inj hsubject
    obtain ⟨-, ⟨-, rfl⟩ | ⟨rfl, -, -⟩⟩ := enqueue_eq_ok_iff.mp hok
    · exact .refl key _
    · exact same_addFile hne file
  | advance moved start target =>
    obtain rfl := Option.some.inj hsubject
    obtain ⟨-, current, -, ⟨-, rfl⟩ | ⟨-, -, rfl⟩⟩ := advance_eq_ok_iff.mp hok
    · exact .refl key _
    · exact same_setOffset hne target.offset
  | finish finished seq =>
    obtain rfl := Option.some.inj hsubject
    obtain ⟨-, -, rfl⟩ := finish_eq_ok_iff.mp hok
    refine ⟨(same_setOffset hne 0).offset, fun number ↦ ?_⟩
    rw [lists_setOffset, lists_removeFile, beq_eq_false_iff_ne.mpr hne, Bool.false_and, Bool.not_false,
      Bool.and_true]
  | drop dropped =>
    obtain rfl := Option.some.inj hsubject
    cases hok
    constructor
    · show (tables.remove dropped).offset? key = _
      rw [offset?_remove, if_neg hne]
    · intro seq
      show (tables.remove dropped).lists key seq = _
      rw [lists_remove, bne_iff_ne.mpr hne, Bool.and_true]
  | handOver => cases hsubject

theorem filesOf_filter (keep : QueueKey × FileRef → Bool) (hkeep : ∀ file, keep (key, file) = true) :
    filesOf { tables with files := tables.files.filter keep } key = tables.filesOf key := by
  unfold filesOf
  rw [List.filterMap_filter]
  congr 2
  funext ⟨owner, file⟩
  by_cases howner : owner = key
  · rw [howner, hkeep, if_pos rfl]
  · simp [howner]

/-- The queue lists the files it did. -/
theorem filesOf_of_ne {operation : Operation} (hok : tables.perform operation = .ok after)
    (hsubject : operation.subject? = some other) (hne : key ≠ other) :
    after.filesOf key = tables.filesOf key := by
  cases operation with
  | create created seed =>
    obtain rfl := Option.some.inj hsubject
    cases hok
    unfold create
    split
    case h_1 => rfl
    case h_2 =>
      split
      case h_1 => rfl
      case h_2 file offset => exact filesOf_addFile_of_ne (Ne.symm hne) file
  | enqueue listed file =>
    obtain rfl := Option.some.inj hsubject
    obtain ⟨-, ⟨-, rfl⟩ | ⟨rfl, -, -⟩⟩ := enqueue_eq_ok_iff.mp hok
    · rfl
    · exact filesOf_addFile_of_ne (Ne.symm hne) file
  | advance moved start target =>
    obtain rfl := Option.some.inj hsubject
    obtain ⟨-, current, -, ⟨-, rfl⟩ | ⟨-, -, rfl⟩⟩ := advance_eq_ok_iff.mp hok <;> rfl
  | finish finished seq =>
    obtain rfl := Option.some.inj hsubject
    obtain ⟨-, -, rfl⟩ := finish_eq_ok_iff.mp hok
    refine filesOf_filter _ fun file ↦ ?_
    rw [beq_eq_false_iff_ne.mpr hne]
    rfl
  | drop dropped =>
    obtain rfl := Option.some.inj hsubject
    cases hok
    exact filesOf_filter (·.1 != dropped) fun _ ↦ bne_iff_ne.mpr hne
  | handOver => cases hsubject

/-- Of all operations on a queue only its drop takes it away. -/
theorem isSome_offset?_of_perform {operation : Operation} (hok : tables.perform operation = .ok after)
    (hsubject : operation.subject? = some key) (hkept : operation ≠ .drop key)
    (hthere : (tables.offset? key).isSome = true) : (after.offset? key).isSome = true := by
  have hset (before : QueueTables) (hbefore : (before.offset? key).isSome = true) (offset : Nat) :
      ((before.setOffset key offset).offset? key).isSome = true := by
    rw [offset?_setOffset, if_pos rfl, Option.isSome_map]
    exact hbefore
  cases operation with
  | create created seed =>
    obtain rfl := Option.some.inj hsubject
    cases hok
    obtain ⟨offset, hoffset⟩ := Option.isSome_iff_exists.mp hthere
    unfold create
    rw [hoffset]
    exact hthere
  | enqueue listed file =>
    obtain rfl := Option.some.inj hsubject
    obtain ⟨-, ⟨-, rfl⟩ | ⟨rfl, -, -⟩⟩ := enqueue_eq_ok_iff.mp hok
    · exact hthere
    · exact hthere
  | advance moved start target =>
    obtain rfl := Option.some.inj hsubject
    obtain ⟨-, current, -, ⟨-, rfl⟩ | ⟨-, -, rfl⟩⟩ := advance_eq_ok_iff.mp hok
    · exact hthere
    · exact hset tables hthere target.offset
  | finish finished seq =>
    obtain rfl := Option.some.inj hsubject
    obtain ⟨-, -, rfl⟩ := finish_eq_ok_iff.mp hok
    exact hset (tables.removeFile finished seq) hthere 0
  | drop dropped =>
    obtain rfl := Option.some.inj hsubject
    exact absurd rfl hkept
  | handOver => cases hsubject

/-- If the queue is there, it stands at the mark or behind it. -/
structure Stands (mark : LogPosition) (key : QueueKey) (tables : QueueTables) : Prop where
  small : ∀ seq, tables.lists key seq = true → seq.toNat < 1 <<< 63
  position : ∀ offset, tables.offset? key = some offset →
    ∃ first, tables.headSeq? key = some first ∧ LogPosition.Behind ⟨first, offset⟩ mark

theorem Stands.of_same (h : Stands mark key tables) (hsame : Same key tables after) :
    Stands mark key after where
  small seq hlisted := h.small seq (hsame.lists seq ▸ hlisted)
  position offset hoffset := by
    rw [hsame.headSeq?]
    exact h.position offset (hsame.offset ▸ hoffset)

theorem stands_of_absent (wf : tables.WellFormed) (habsent : tables.offset? key = none) :
    Stands mark key tables where
  small seq hlisted := by
    rw [wf.not_lists habsent] at hlisted
    cases hlisted
  position offset hoffset := by
    rw [habsent] at hoffset
    cases hoffset

/-- A queue is created behind the mark, if it is not there. -/
theorem Stands.create (h : Stands mark key tables) (wf : tables.WellFormed) {offset : Nat}
    (hsmall : file.seq.toNat < 1 <<< 63) (hbehind : LogPosition.Behind ⟨file.seq, offset⟩ mark) :
    Stands mark key (tables.create key (some (file, offset))).2 := by
  unfold QueueTables.create
  split
  case h_1 => exact h
  case h_2 habsent =>
    have hlists (seq : UInt64) : (QueueTables.addFile
        { tables with offsets := tables.offsets ++ [(key, offset)] } key file).lists key seq = true ↔
          file.seq = seq := by
      have hnot : ({ tables with offsets := tables.offsets ++ [(key, offset)] } : QueueTables).lists key seq =
          false := wf.not_lists habsent seq
      rw [lists_addFile, hnot, Bool.false_or, beq_self_eq_true, Bool.true_and, beq_iff_eq]
    refine ⟨fun seq hlisted ↦ (hlists seq).mp hlisted ▸ hsmall, fun current hcurrent ↦ ?_⟩
    have hoffset : current = offset := by
      rw [offset?_addFile, offset?, List.lookup_append, show tables.offsets.lookup key = none from habsent,
        Option.none_or, List.lookup_cons_self] at hcurrent
      exact (Option.some.inj hcurrent).symm
    refine ⟨file.seq, headSeq?_eq_some_iff.mpr ⟨(hlists _).mpr rfl, fun seq hlisted ↦ ?_⟩, hoffset ▸ hbehind⟩
    exact Int.le_of_eq (congrArg rank ((hlists seq).mp hlisted))

/-- A file is listed behind the others. -/
theorem headSeq?_enqueue (hsmall : ∀ seq, tables.lists key seq = true → seq.toNat < 1 <<< 63)
    (hfile : file.seq.toNat < 1 <<< 63) (hok : tables.enqueue key file = .ok after)
    (hhead : tables.headSeq? key = some first) : after.headSeq? key = some first := by
  obtain ⟨-, ⟨-, rfl⟩ | ⟨rfl, -, hlast⟩⟩ := enqueue_eq_ok_iff.mp hok
  · exact hhead
  · obtain ⟨hlisted, hleast⟩ := headSeq?_eq_some_iff.mp hhead
    refine headSeq?_eq_some_iff.mpr ⟨?_, fun seq hseq ↦ ?_⟩
    · rw [lists_addFile, hlisted, Bool.true_or]
    · rw [lists_addFile, Bool.or_eq_true, Bool.and_eq_true, beq_iff_eq, beq_iff_eq] at hseq
      rcases hseq with hold | ⟨-, rfl⟩
      · exact hleast seq hold
      · obtain ⟨tail, htail⟩ : ∃ tail, tables.tailSeq? key = some tail := by
          rw [← Option.isSome_iff_exists, Option.isSome_iff_ne_none, ne_eq, tailSeq?_eq_none_iff]
          intro hnone
          rw [hnone] at hlisted
          cases hlisted
        have htail' := (tailSeq?_eq_some_iff.mp htail).1
        have hlt := UInt64.lt_iff_toNat_lt.mp (hlast tail htail)
        have hle := hleast tail htail'
        rw [rank_eq_toNat (hsmall tail htail')] at hle
        rw [rank_eq_toNat hfile]
        omega

theorem Stands.enqueue (h : Stands mark key tables) (hsmall : file.seq.toNat < 1 <<< 63)
    (hok : tables.enqueue key file = .ok after) : Stands mark key after := by
  have hoffset : after.offset? key = tables.offset? key := by
    obtain ⟨-, ⟨-, rfl⟩ | ⟨rfl, -, -⟩⟩ := enqueue_eq_ok_iff.mp hok <;> rfl
  constructor
  case small =>
    intro seq hlisted
    obtain ⟨-, ⟨-, rfl⟩ | ⟨rfl, -, -⟩⟩ := enqueue_eq_ok_iff.mp hok
    · exact h.small seq hlisted
    · rw [lists_addFile, Bool.or_eq_true, Bool.and_eq_true, beq_iff_eq, beq_iff_eq] at hlisted
      rcases hlisted with hold | ⟨-, rfl⟩
      · exact h.small seq hold
      · exact hsmall
  case position =>
    intro offset hthere
    obtain ⟨first, hhead, hbehind⟩ := h.position offset (hoffset ▸ hthere)
    exact ⟨first, headSeq?_enqueue h.small hsmall hok hhead, hbehind⟩

theorem Stands.advance (h : Stands mark key tables) {start : Nat} {target : LogPosition}
    (hok : tables.advance key start target = .ok after) : Stands mark key after := by
  obtain ⟨-, current, hcurrent, ⟨-, rfl⟩ | ⟨hlt, -, rfl⟩⟩ := advance_eq_ok_iff.mp hok
  · exact h
  · refine ⟨h.small, fun offset hoffset ↦ ?_⟩
    rw [offset?_setOffset, if_pos rfl, hcurrent, Option.map_some] at hoffset
    obtain ⟨first, hhead, hbehind⟩ := h.position current hcurrent
    refine ⟨first, (headSeq?_setOffset target.offset key).trans hhead, ?_⟩
    exact hbehind.of_le (Option.some.inj hoffset ▸ Nat.le_of_lt hlt)

/-! ## Files with another behind them -/

/-- The file is the first one listed, and not the only one. -/
structure Backed (tables : QueueTables) (key : QueueKey) (first : UInt64) : Prop where
  head : tables.headSeq? key = some first
  more : ∃ other, tables.lists key other = true ∧ other ≠ first

theorem Backed.of_same (h : tables.Backed key first) (hsame : Same key tables after) :
    after.Backed key first where
  head := hsame.headSeq?.trans h.head
  more := by
    obtain ⟨other, hlisted, hne⟩ := h.more
    exact ⟨other, (hsame.lists other).trans hlisted, hne⟩

theorem Backed.enqueue (h : tables.Backed key first)
    (hsmall : ∀ seq, tables.lists key seq = true → seq.toNat < 1 <<< 63)
    (hfile : file.seq.toNat < 1 <<< 63) (hok : tables.enqueue key file = .ok after) :
    after.Backed key first where
  head := headSeq?_enqueue hsmall hfile hok h.head
  more := by
    obtain ⟨other, hlisted, hne⟩ := h.more
    obtain ⟨-, ⟨-, rfl⟩ | ⟨rfl, -, -⟩⟩ := enqueue_eq_ok_iff.mp hok
    · exact ⟨other, hlisted, hne⟩
    · exact ⟨other, by rw [lists_addFile, hlisted, Bool.true_or], hne⟩

theorem Backed.create (h : tables.Backed key first) (wf : tables.WellFormed)
    (seed : Option (FileRef × Nat)) : (tables.create key seed).2.Backed key first := by
  obtain ⟨other, hlisted, -⟩ := h.more
  obtain ⟨offset, hoffset⟩ := Option.isSome_iff_exists.mp (wf.owned key other hlisted)
  unfold QueueTables.create
  rw [hoffset]
  exact h

theorem Backed.advance (h : tables.Backed key first) {start : Nat} {target : LogPosition}
    (hok : tables.advance key start target = .ok after) : after.Backed key first := by
  obtain ⟨-, current, -, ⟨-, rfl⟩ | ⟨-, -, rfl⟩⟩ := advance_eq_ok_iff.mp hok
  · exact h
  · exact ⟨(headSeq?_setOffset target.offset key).trans h.head, h.more⟩

/-- A queue that lists more files than one has another behind the first. -/
theorem backed_of_hasNext (wf : tables.WellFormed) {queue : Queue} (hqueue : tables.get? key = some queue)
    (hhead : queue.head? = some file) (hnext : queue.hasNext = true) : tables.Backed key file.seq := by
  obtain ⟨offset, -, rfl⟩ := get?_eq_some_iff.mp hqueue
  have hstrict := wf.pairwise_filesOf_lt key
  obtain ⟨later, hfiles⟩ := List.head?_eq_some_iff.mp hhead
  change tables.filesOf key = file :: later at hfiles
  cases later with
  | nil =>
    change decide (1 < (tables.filesOf key).length) = true at hnext
    rw [hfiles] at hnext
    cases hnext
  | cons second rest =>
    refine ⟨by rw [headSeq?, hfiles]; rfl, second.seq, ?_, fun hsame ↦ ?_⟩
    · refine lists_iff_mem_filesOf.mpr ⟨second, ?_, rfl⟩
      rw [hfiles]
      simp
    · rw [hfiles, List.pairwise_cons] at hstrict
      have hlt := hstrict.1 second List.mem_cons_self
      rw [hsame] at hlt
      exact Int.lt_irrefl _ hlt

/-- The next file is the first one then. -/
theorem Stands.finish (h : Stands mark key tables) (hbacked : tables.Backed key first)
    (hok : tables.finish key first = .ok after) : Stands mark key after := by
  obtain ⟨hthere, -, rfl⟩ := finish_eq_ok_iff.mp hok
  have hlists (seq : UInt64) : ((tables.removeFile key first).setOffset key 0).lists key seq = true ↔
      tables.lists key seq = true ∧ seq ≠ first := by
    rw [lists_setOffset, lists_removeFile, Bool.and_eq_true, beq_self_eq_true, Bool.true_and,
      Bool.not_eq_true', beq_eq_false_iff_ne]
  refine ⟨fun seq hlisted ↦ h.small seq ((hlists seq).mp hlisted).1, fun offset _ ↦ ?_⟩
  obtain ⟨next, hnext⟩ : ∃ next, ((tables.removeFile key first).setOffset key 0).headSeq? key = some next := by
    rw [← Option.isSome_iff_exists, Option.isSome_iff_ne_none, ne_eq, headSeq?_eq_none_iff]
    intro hnone
    obtain ⟨other, hmore⟩ := hbacked.more
    exact Bool.eq_false_iff.mp (hnone other) ((hlists other).mpr hmore)
  obtain ⟨current, hcurrent⟩ := Option.isSome_iff_exists.mp hthere
  obtain ⟨head, hhead, hbehind⟩ := h.position current hcurrent
  obtain rfl : head = first := Option.some.inj (hhead.symm.trans hbacked.head)
  obtain ⟨hlisted, hne⟩ := (hlists next).mp (headSeq?_eq_some_iff.mp hnext).1
  obtain ⟨hfirst, hleast⟩ := headSeq?_eq_some_iff.mp hhead
  refine ⟨next, hnext, hbehind.of_lt (UInt64.lt_of_le_of_ne ?_ (Ne.symm hne)) offset⟩
  have hle := hleast next hlisted
  rw [rank_eq_toNat (h.small _ hfirst), rank_eq_toNat (h.small _ hlisted)] at hle
  show head ≤ next
  rw [UInt64.le_iff_toNat_le]
  omega

end QueueTables

end LogShipping
