import LogShipping.Proofs.Queue.Representation

/-!
# File numbers on both sides of the sign

The tables keep file numbers as signed words and order them so, while a file that is to be listed is compared
with the last one as the number it is. On a queue whose numbers are all below 2⁶³, or all from there on, the two
orders are one: the files are shown in the order of their numbers, the first file is the one with the smallest,
and a file is listed if its number is above all others. On a queue with numbers on both sides none of the three
holds.
-/

namespace LogShipping

namespace QueueTables

variable {tables : QueueTables} {key : QueueKey}

/-! ## The two orders -/

/-- From 2⁶³ on, numbers are stored as negative words. -/
theorem rank_of_le {seq : UInt64} (h : 1 <<< 63 ≤ seq.toNat) :
    rank seq = (seq.toNat : Int) - (UInt64.size : Nat) := by
  show seq.toBitVec.toInt = _
  rw [BitVec.toInt_eq_toNat_cond, if_neg]
  · rfl
  · show ¬2 * seq.toNat < 2 ^ 64
    omega

/-- On one side of 2⁶³ the two orders agree. -/
theorem rank_lt_rank_iff {x y : UInt64} (hside : x.toNat < 1 <<< 63 ↔ y.toNat < 1 <<< 63) :
    rank x < rank y ↔ x < y := by
  rw [UInt64.lt_iff_toNat_lt]
  by_cases hx : x.toNat < 1 <<< 63
  case pos =>
    rw [rank_eq_toNat hx, rank_eq_toNat (hside.mp hx)]
    omega
  case neg =>
    have hy : ¬y.toNat < 1 <<< 63 := fun hy ↦ hx (hside.mpr hy)
    rw [rank_of_le (Nat.not_lt.mp hx), rank_of_le (Nat.not_lt.mp hy)]
    omega

theorem rank_le_rank_iff {x y : UInt64} (hside : x.toNat < 1 <<< 63 ↔ y.toNat < 1 <<< 63) :
    rank x ≤ rank y ↔ x ≤ y := by
  rw [← Int.not_lt, ← UInt64.not_lt]
  exact not_congr (rank_lt_rank_iff hside.symm)

/-- Across 2⁶³ they are opposite. -/
theorem rank_lt_of_sides {low high : UInt64} (hlow : low.toNat < 1 <<< 63) (hhigh : 1 <<< 63 ≤ high.toNat) :
    rank high < rank low ∧ low < high := by
  have hbound := high.toNat_lt_size
  rw [rank_eq_toNat hlow, rank_of_le hhigh, UInt64.lt_iff_toNat_lt]
  omega

/-! ## What the order of numbers asks for -/

/-- The queue lists a number below 2⁶³ and one from there on. -/
def Straddles (tables : QueueTables) (key : QueueKey) : Prop :=
  ∃ low high, tables.lists key low = true ∧ tables.lists key high = true ∧
    low.toNat < 1 <<< 63 ∧ 1 <<< 63 ≤ high.toNat

def Smallest (tables : QueueTables) (key : QueueKey) (seq : UInt64) : Prop :=
  tables.lists key seq = true ∧ ∀ other, tables.lists key other = true → seq ≤ other

def Largest (tables : QueueTables) (key : QueueKey) (seq : UInt64) : Prop :=
  tables.lists key seq = true ∧ ∀ other, tables.lists key other = true → other ≤ seq

def AboveAll (tables : QueueTables) (key : QueueKey) (seq : UInt64) : Prop :=
  ∀ other, tables.lists key other = true → other < seq

/-- The files are shown in the order of their numbers. -/
def ShownInOrder (tables : QueueTables) (key : QueueKey) : Prop :=
  ∀ queue, tables.get? key = some queue → queue.files.Pairwise fun x y ↦ x.seq < y.seq

/-- The file that can be finished, and the one that can be advanced in, is the one with the smallest number. -/
structure HeadSmallest (tables : QueueTables) (key : QueueKey) : Prop where
  finish : ∀ seq, (∃ after, tables.finish key seq = .ok after) ↔ tables.Smallest key seq
  advance : ∀ seq, (∃ start offset after, tables.advance key start ⟨seq, offset⟩ = .ok after) ↔
    tables.Smallest key seq

/-- A file is listed if its number is above all others. The largest number once more changes nothing, and any
other is refused. -/
structure TakesLarger (tables : QueueTables) (key : QueueKey) : Prop where
  above : ∀ file, tables.AboveAll key file.seq → tables.enqueue key file = .ok (tables.addFile key file)
  again : ∀ file, tables.Largest key file.seq → tables.enqueue key file = .ok tables
  other : ∀ file, ¬tables.AboveAll key file.seq → ¬tables.Largest key file.seq →
    ∃ error, tables.enqueue key file = .error error

/-! ## Numbers on one side -/

section OneSide

theorem side_iff_of_not_straddles (h : ¬tables.Straddles key) {x y : UInt64}
    (hx : tables.lists key x = true) (hy : tables.lists key y = true) :
    x.toNat < 1 <<< 63 ↔ y.toNat < 1 <<< 63 := by
  constructor
  · intro hlow
    exact Nat.not_le.mp fun hhigh ↦ h ⟨x, y, hx, hy, hlow, hhigh⟩
  · intro hlow
    exact Nat.not_le.mp fun hhigh ↦ h ⟨y, x, hy, hx, hlow, hhigh⟩

theorem headSeq?_eq_some_iff_smallest (h : ¬tables.Straddles key) {seq : UInt64} :
    tables.headSeq? key = some seq ↔ tables.Smallest key seq := by
  rw [headSeq?_eq_some_iff, Smallest]
  apply and_congr_right
  intro hseq
  apply forall₂_congr
  intro other hother
  exact rank_le_rank_iff (side_iff_of_not_straddles h hseq hother)

theorem tailSeq?_eq_some_iff_largest (h : ¬tables.Straddles key) {seq : UInt64} :
    tables.tailSeq? key = some seq ↔ tables.Largest key seq := by
  rw [tailSeq?_eq_some_iff, Largest]
  apply and_congr_right
  intro hseq
  apply forall₂_congr
  intro other hother
  exact rank_le_rank_iff (side_iff_of_not_straddles h hother hseq)

theorem shownInOrder_of_not_straddles (wf : tables.WellFormed) (h : ¬tables.Straddles key) :
    tables.ShownInOrder key := by
  intro queue hqueue
  obtain ⟨offset, -, rfl⟩ := get?_eq_some_iff.mp hqueue
  apply (wf.pairwise_filesOf_lt key).imp_of_mem
  intro x y hx hy hlt
  have hx' : tables.lists key x.seq = true := lists_iff_mem_filesOf.mpr ⟨x, hx, rfl⟩
  have hy' : tables.lists key y.seq = true := lists_iff_mem_filesOf.mpr ⟨y, hy, rfl⟩
  exact (rank_lt_rank_iff (side_iff_of_not_straddles h hx' hy')).mp hlt

end OneSide

/-! ## Finishing, advancing and listing -/

section Accepted

variable (hthere : (tables.offset? key).isSome = true)

include hthere

theorem exists_finish_iff (seq : UInt64) :
    (∃ after, tables.finish key seq = .ok after) ↔ tables.headSeq? key = some seq := by
  simp only [finish_eq_ok_iff, hthere, true_and, exists_and_left, exists_eq, and_true]

theorem exists_advance_iff (seq : UInt64) :
    (∃ start offset after, tables.advance key start ⟨seq, offset⟩ = .ok after) ↔
      tables.headSeq? key = some seq := by
  constructor
  · rintro ⟨start, offset, after, hok⟩
    exact (advance_eq_ok_iff.mp hok).1
  · intro hhead
    obtain ⟨current, hcurrent⟩ := Option.isSome_iff_exists.mp hthere
    exact ⟨current, current, tables, advance_eq_ok_iff.mpr ⟨hhead, current, hcurrent, .inl ⟨rfl, rfl⟩⟩⟩

theorem headSmallest_iff :
    tables.HeadSmallest key ↔ ∀ seq, tables.headSeq? key = some seq ↔ tables.Smallest key seq := by
  constructor
  · intro h seq
    rw [← exists_finish_iff hthere]
    exact h.finish seq
  · intro h
    constructor
    case finish =>
      intro seq
      rw [exists_finish_iff hthere]
      exact h seq
    case advance =>
      intro seq
      rw [exists_advance_iff hthere]
      exact h seq

theorem takesLarger_of_not_straddles (h : ¬tables.Straddles key) : tables.TakesLarger key := by
  constructor
  case above =>
    intro file habove
    refine enqueue_eq_ok_iff.mpr ⟨hthere, .inr ⟨rfl, ?_, ?_⟩⟩
    · rw [← Bool.not_eq_true]
      exact fun hlisted ↦ UInt64.lt_irrefl _ (habove file.seq hlisted)
    · intro tail htail
      exact habove tail ((tailSeq?_eq_some_iff_largest h).mp htail).1
  case again =>
    intro file hlargest
    exact enqueue_eq_ok_iff.mpr ⟨hthere, .inl ⟨(tailSeq?_eq_some_iff_largest h).mpr hlargest, rfl⟩⟩
  case other =>
    intro file habove hlargest
    cases henqueue : tables.enqueue key file with
    | error error => exact ⟨error, rfl⟩
    | ok after =>
      obtain ⟨-, ⟨htail, -⟩ | ⟨-, -, hlast⟩⟩ := enqueue_eq_ok_iff.mp henqueue
      · exact absurd ((tailSeq?_eq_some_iff_largest h).mp htail) hlargest
      · refine absurd (fun other hother ↦ ?_) habove
        cases htail : tables.tailSeq? key with
        | none =>
          rw [tailSeq?_eq_none_iff.mp htail] at hother
          cases hother
        | some tail =>
          exact UInt64.lt_of_le_of_lt (((tailSeq?_eq_some_iff_largest h).mp htail).2 other hother)
            (hlast tail htail)

end Accepted

/-! ## Numbers on both sides -/

section BothSides

variable (h : tables.Straddles key)

include h

/-- A number from 2⁶³ on stands in front. -/
theorem Straddles.exists_head : ∃ head, tables.headSeq? key = some head ∧ 1 <<< 63 ≤ head.toNat := by
  obtain ⟨low, high, -, hlisted, hlow, hhigh⟩ := h
  cases hhead : tables.headSeq? key with
  | none =>
    rw [headSeq?_eq_none_iff.mp hhead] at hlisted
    cases hlisted
  | some head =>
    refine ⟨head, rfl, Nat.not_lt.mp fun hhead' ↦ ?_⟩
    have hfirst := (headSeq?_eq_some_iff.mp hhead).2 high hlisted
    have hbefore := (rank_lt_of_sides hhead' hhigh).1
    omega

/-- A number below 2⁶³ stands at the end. -/
theorem Straddles.exists_tail : ∃ tail, tables.tailSeq? key = some tail ∧ tail.toNat < 1 <<< 63 := by
  obtain ⟨low, high, hlisted, -, hlow, hhigh⟩ := h
  cases htail : tables.tailSeq? key with
  | none =>
    rw [tailSeq?_eq_none_iff.mp htail] at hlisted
    cases hlisted
  | some tail =>
    refine ⟨tail, rfl, Nat.not_le.mp fun htail' ↦ ?_⟩
    have hlast := (tailSeq?_eq_some_iff.mp htail).2 low hlisted
    have hbefore := (rank_lt_of_sides hlow htail').1
    omega

theorem Straddles.not_shownInOrder (hthere : (tables.offset? key).isSome = true) :
    ¬tables.ShownInOrder key := by
  intro hshown
  obtain ⟨offset, hoffset⟩ := Option.isSome_iff_exists.mp hthere
  have hascending := hshown _ (get?_eq_some_iff.mpr ⟨offset, hoffset, rfl⟩)
  obtain ⟨head, hhead, hhigh⟩ := h.exists_head
  obtain ⟨low, -, hlow, -, hsmall, -⟩ := h
  have hbehind := (rank_lt_of_sides hsmall hhigh).2
  obtain ⟨first, hfirst, rfl⟩ := Option.map_eq_some_iff.mp hhead
  obtain ⟨later, hfiles⟩ := List.head?_eq_some_iff.mp hfirst
  obtain ⟨file, hfile, rfl⟩ := lists_iff_mem_filesOf.mp hlow
  rw [hfiles] at hfile hascending
  rcases List.mem_cons.mp hfile with rfl | hlater
  · exact UInt64.lt_irrefl _ hbehind
  · exact UInt64.lt_irrefl _ (UInt64.lt_trans hbehind ((List.pairwise_cons.mp hascending).1 file hlater))

theorem Straddles.not_headSmallest (hthere : (tables.offset? key).isSome = true) :
    ¬tables.HeadSmallest key := by
  intro hsmallest
  obtain ⟨head, hhead, hhigh⟩ := h.exists_head
  obtain ⟨low, -, hlow, -, hsmall, -⟩ := h
  have hle := (((headSmallest_iff hthere).mp hsmallest head).mp hhead).2 low hlow
  exact UInt64.not_le.mpr (rank_lt_of_sides hsmall hhigh).2 hle

/-- The last number once more is let pass, though it is not the largest. -/
theorem Straddles.not_takesLarger (hthere : (tables.offset? key).isSome = true) :
    ¬tables.TakesLarger key := by
  intro htakes
  obtain ⟨tail, htail, hsmall⟩ := h.exists_tail
  obtain ⟨-, high, -, hlisted, -, hhigh⟩ := h
  have hbehind := (rank_lt_of_sides hsmall hhigh).2
  have habove : ¬tables.AboveAll key tail := fun habove ↦
    UInt64.lt_irrefl _ (UInt64.lt_trans hbehind (habove high hlisted))
  have hlargest : ¬tables.Largest key tail := fun hlargest ↦
    UInt64.not_le.mpr hbehind (hlargest.2 high hlisted)
  obtain ⟨error, hrefused⟩ := htakes.other ⟨tail, ""⟩ habove hlargest
  have hpassed : tables.enqueue key ⟨tail, ""⟩ = .ok tables :=
    enqueue_eq_ok_iff.mpr ⟨hthere, .inl ⟨htail, rfl⟩⟩
  cases hrefused.symm.trans hpassed

end BothSides

end QueueTables

namespace QueueStore

/-- Whatever calls were made from empty tables on, with any file numbers: the files of a queue are shown in the
order of their numbers, its first file is the one with the smallest number, and it takes exactly the files
with a number above all others, each if and only if its numbers are on one side of 2⁶³. -/
theorem ordered_iff_not_straddles {database : Database} (hempty : database.queues = .empty) (calls : List Call)
    {key : QueueKey} (hthere : ((serveAll database calls).database.queues.offset? key).isSome = true) :
    ((serveAll database calls).database.queues.ShownInOrder key ↔
        ¬(serveAll database calls).database.queues.Straddles key) ∧
      ((serveAll database calls).database.queues.HeadSmallest key ↔
        ¬(serveAll database calls).database.queues.Straddles key) ∧
      ((serveAll database calls).database.queues.TakesLarger key ↔
        ¬(serveAll database calls).database.queues.Straddles key) := by
  have wf : (serveAll database calls).database.queues.WellFormed := by
    obtain ⟨operations, -, hafter⟩ := queues_serveAll database calls
    rw [hafter, hempty]
    exact QueueTables.WellFormed.empty.run operations
  refine ⟨⟨fun h hstraddles ↦ hstraddles.not_shownInOrder hthere h, ?_⟩,
    ⟨fun h hstraddles ↦ hstraddles.not_headSmallest hthere h, ?_⟩,
    ⟨fun h hstraddles ↦ hstraddles.not_takesLarger hthere h, ?_⟩⟩
  · exact QueueTables.shownInOrder_of_not_straddles wf
  · intro h
    exact (QueueTables.headSmallest_iff hthere).mpr fun seq ↦ QueueTables.headSeq?_eq_some_iff_smallest h
  · exact QueueTables.takesLarger_of_not_straddles hthere

/-- A queue that begins at 2⁶³. -/
def beyond : List Call :=
  [.create (.own "rs-1" "2") (some (⟨0x8000000000000000, "/wal/a"⟩, 0)),
    .enqueue (.own "rs-1" "2") ⟨0x8000000000000001, "/wal/b"⟩]

/-- All its numbers are stored as negative words, and it is in order. -/
theorem ordered_beyond :
    ((serveAll .empty beyond).database.queues.offset? (.own "rs-1" "2")).isSome = true ∧
      (serveAll .empty beyond).database.queues.ShownInOrder (.own "rs-1" "2") ∧
      (serveAll .empty beyond).database.queues.HeadSmallest (.own "rs-1" "2") ∧
      (serveAll .empty beyond).database.queues.TakesLarger (.own "rs-1" "2") := by
  have hthere : ((serveAll .empty beyond).database.queues.offset? (.own "rs-1" "2")).isSome = true := by decide +kernel
  have hside : ¬(serveAll .empty beyond).database.queues.Straddles (.own "rs-1" "2") := by
    rintro ⟨low, -, hlisted, -, hlow, -⟩
    have hfiles : (serveAll .empty beyond).database.queues.files =
        [(.own "rs-1" "2", ⟨0x8000000000000000, "/wal/a"⟩),
          (.own "rs-1" "2", ⟨0x8000000000000001, "/wal/b"⟩)] := by
      decide +kernel
    obtain ⟨file, hrow, rfl⟩ := QueueTables.lists_iff.mp hlisted
    rw [hfiles] at hrow
    simp only [List.mem_cons, Prod.mk.injEq, true_and, List.not_mem_nil, or_false] at hrow
    rcases hrow with rfl | rfl <;> exact absurd hlow (by decide)
  obtain ⟨hshown, hhead, htakes⟩ := ordered_iff_not_straddles rfl beyond hthere
  exact ⟨hthere, hshown.mpr hside, hhead.mpr hside, htakes.mpr hside⟩

/-- A queue that begins at 5 and goes on at 2⁶³. -/
def across : List Call :=
  [.create (.own "rs-1" "2") (some (⟨5, "/wal/f5"⟩, 0)),
    .enqueue (.own "rs-1" "2") ⟨0x8000000000000000, "/wal/f9223372036854775808"⟩]

/-- The number that was listed last stands in front. -/
theorem not_ordered_across :
    (serveAll .empty across).database.queues.headSeq? (.own "rs-1" "2") = some 0x8000000000000000 ∧
      ¬(serveAll .empty across).database.queues.ShownInOrder (.own "rs-1" "2") ∧
      ¬(serveAll .empty across).database.queues.HeadSmallest (.own "rs-1" "2") ∧
      ¬(serveAll .empty across).database.queues.TakesLarger (.own "rs-1" "2") := by
  have hthere : ((serveAll .empty across).database.queues.offset? (.own "rs-1" "2")).isSome = true := by decide +kernel
  have hstraddles : (serveAll .empty across).database.queues.Straddles (.own "rs-1" "2") :=
    ⟨5, 0x8000000000000000, by decide +kernel, by decide +kernel, by decide, by decide⟩
  have hfiles : (serveAll .empty across).database.queues.filesOf (.own "rs-1" "2") =
      [⟨0x8000000000000000, "/wal/f9223372036854775808"⟩, ⟨5, "/wal/f5"⟩] :=
    QueueTables.filesOf_eq_of_perm (by decide +kernel) (by decide)
  have hhead : (serveAll .empty across).database.queues.headSeq? (.own "rs-1" "2") = some 0x8000000000000000 := by
    rw [QueueTables.headSeq?, hfiles]
    rfl
  exact ⟨hhead, hstraddles.not_shownInOrder hthere, hstraddles.not_headSmallest hthere,
    hstraddles.not_takesLarger hthere⟩

end QueueStore

end LogShipping
