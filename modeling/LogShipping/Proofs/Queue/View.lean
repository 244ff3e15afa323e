import LogShipping.Queue.Tables

/-!
# What the queue tables show of a queue

A queue is seen through two questions: at which offset it stands, and whether a file number is listed on
it. Every change of the tables has one equation for each of the two. The order of the files in the
tables is that of `rank`, the file number as a signed word, and the first and the last number of a queue
are told by it.
-/

namespace LogShipping.QueueTables

/-! ## The order of file numbers -/

/-- The place of a file number in the order of the tables. -/
def rank (seq : UInt64) : Int := seq.toInt64.toInt

theorem toInt64_le_iff {x y : UInt64} : x.toInt64 ≤ y.toInt64 ↔ rank x ≤ rank y :=
  Int64.le_iff_toInt_le

theorem toInt64_lt_iff {x y : UInt64} : x.toInt64 < y.toInt64 ↔ rank x < rank y :=
  Int64.lt_iff_toInt_lt

theorem rank_injective {x y : UInt64} (h : rank x = rank y) : x = y := by
  have hsigned : x.toInt64 = y.toInt64 := Int64.toInt_inj.mp h
  rw [← UInt64.toUInt64_toInt64 x, hsigned, UInt64.toUInt64_toInt64]

/-- Below 2⁶³ the order of the tables is the order of the numbers. -/
theorem rank_eq_toNat {seq : UInt64} (h : seq.toNat < 1 <<< 63) : rank seq = seq.toNat := by
  show seq.toBitVec.toInt = _
  rw [BitVec.toInt_eq_toNat_of_lt]
  · rfl
  · show 2 * seq.toNat < 2 ^ 64
    omega

theorem storedOrder_iff {x y : FileRef} : storedOrder x y = true ↔ rank x.seq ≤ rank y.seq := by
  rw [storedOrder, decide_eq_true_iff, toInt64_le_iff]

/-! ## Listed numbers -/

theorem lists_iff {tables : QueueTables} {key : QueueKey} {seq : UInt64} :
    tables.lists key seq = true ↔ ∃ file, (key, file) ∈ tables.files ∧ file.seq = seq := by
  simp only [lists, List.any_eq_true, Bool.and_eq_true, beq_iff_eq, Prod.exists]
  constructor
  · rintro ⟨_, file, hmem, rfl, hseq⟩
    exact ⟨file, hmem, hseq⟩
  · rintro ⟨file, hmem, hseq⟩
    exact ⟨key, file, hmem, rfl, hseq⟩

@[simp] theorem mem_filesOf {tables : QueueTables} {key : QueueKey} {file : FileRef} :
    file ∈ tables.filesOf key ↔ (key, file) ∈ tables.files := by
  simp only [filesOf, List.mem_mergeSort, List.mem_filterMap, Prod.exists]
  constructor
  · rintro ⟨k, f, hmem, h⟩
    by_cases hk : k = key <;> simp_all
  · intro hmem
    exact ⟨key, file, hmem, by simp⟩

theorem lists_iff_mem_filesOf {tables : QueueTables} {key : QueueKey} {seq : UInt64} :
    tables.lists key seq = true ↔ ∃ file ∈ tables.filesOf key, file.seq = seq := by
  simp only [lists_iff, mem_filesOf]

theorem pairwise_filesOf (tables : QueueTables) (key : QueueKey) :
    (tables.filesOf key).Pairwise fun x y ↦ rank x.seq ≤ rank y.seq := by
  have htrans (x y z : FileRef) (hxy : storedOrder x y = true) (hyz : storedOrder y z = true) :
      storedOrder x z = true := by
    rw [storedOrder_iff] at hxy hyz ⊢
    omega
  have htotal (x y : FileRef) : (storedOrder x y || storedOrder y x) = true := by
    simp only [Bool.or_eq_true, storedOrder_iff]
    omega
  exact (List.pairwise_mergeSort htrans htotal _).imp fun h ↦ storedOrder_iff.mp h

/-- The files that are listed on a queue and their order leave no choice. -/
theorem filesOf_eq_of_perm {tables : QueueTables} {key : QueueKey} {files : List FileRef}
    (hrows : (tables.files.filterMap fun row ↦ if row.1 = key then some row.2 else none).Perm files)
    (hsorted : files.Pairwise fun x y ↦ rank x.seq < rank y.seq) : tables.filesOf key = files := by
  have hperm : (tables.filesOf key).Perm files := (List.mergeSort_perm _ _).trans hrows
  have hdistinct : (tables.filesOf key).Pairwise fun x y ↦ rank x.seq ≠ rank y.seq :=
    hperm.symm.pairwise (hsorted.imp Int.ne_of_lt) Ne.symm
  have hstrict : (tables.filesOf key).Pairwise fun x y ↦ rank x.seq < rank y.seq :=
    ((pairwise_filesOf tables key).and hdistinct).imp Int.lt_iff_le_and_ne.mpr
  exact hperm.eq_of_pairwise (fun x y _ _ hxy hyx ↦ absurd hyx (Int.not_lt.mpr (Int.le_of_lt hxy))) hstrict hsorted

theorem headSeq?_eq_some_iff {tables : QueueTables} {key : QueueKey} {seq : UInt64} :
    tables.headSeq? key = some seq ↔
      tables.lists key seq = true ∧
        ∀ other, tables.lists key other = true → rank seq ≤ rank other := by
  have hsorted := pairwise_filesOf tables key
  rw [headSeq?]
  cases hfiles : tables.filesOf key with
  | nil => simp [lists_iff_mem_filesOf, hfiles]
  | cons head later =>
    rw [hfiles] at hsorted
    have hleast (file : FileRef) (hmem : file ∈ head :: later) : rank head.seq ≤ rank file.seq := by
      rcases List.mem_cons.mp hmem with rfl | hlater
      · exact Int.le_refl _
      · exact (List.pairwise_cons.mp hsorted).1 file hlater
    simp only [List.head?_cons, Option.map_some, Option.some.injEq,
      lists_iff_mem_filesOf, hfiles]
    constructor
    · rintro rfl
      refine ⟨⟨head, List.mem_cons_self, rfl⟩, ?_⟩
      rintro _ ⟨file, hmem, rfl⟩
      exact hleast file hmem
    · rintro ⟨⟨file, hmem, rfl⟩, hle⟩
      have h₁ := hleast file hmem
      have h₂ := hle head.seq ⟨head, List.mem_cons_self, rfl⟩
      exact rank_injective (by omega)

theorem headSeq?_eq_none_iff {tables : QueueTables} {key : QueueKey} :
    tables.headSeq? key = none ↔ ∀ seq, tables.lists key seq = false := by
  rw [headSeq?, Option.map_eq_none_iff, List.head?_eq_none_iff, List.eq_nil_iff_forall_not_mem]
  simp only [mem_filesOf, ← Bool.not_eq_true, lists_iff]
  constructor
  · rintro h seq ⟨file, hmem, -⟩
    exact h file hmem
  · intro h file hmem
    exact h file.seq ⟨file, hmem, rfl⟩

theorem tailSeq?_eq_some_iff {tables : QueueTables} {key : QueueKey} {seq : UInt64} :
    tables.tailSeq? key = some seq ↔
      tables.lists key seq = true ∧
        ∀ other, tables.lists key other = true → rank other ≤ rank seq := by
  have hsorted := pairwise_filesOf tables key
  rw [tailSeq?]
  rcases List.eq_nil_or_concat (tables.filesOf key) with hfiles | ⟨earlier, tail, hfiles⟩
  · simp [lists_iff_mem_filesOf, hfiles]
  · rw [List.concat_eq_append] at hfiles
    rw [hfiles] at hsorted
    have hmost (file : FileRef) (hmem : file ∈ earlier ++ [tail]) : rank file.seq ≤ rank tail.seq := by
      rcases List.mem_append.mp hmem with hearlier | hlast
      · exact (List.pairwise_append.mp hsorted).2.2 file hearlier tail (by simp)
      · exact Int.le_of_eq (congrArg (rank ·.seq) (List.mem_singleton.mp hlast))
    simp only [lists_iff_mem_filesOf, hfiles, List.getLast?_concat, Option.map_some,
      Option.some.injEq]
    constructor
    · rintro rfl
      refine ⟨⟨tail, by simp, rfl⟩, ?_⟩
      rintro _ ⟨file, hmem, rfl⟩
      exact hmost file hmem
    · rintro ⟨⟨file, hmem, rfl⟩, hle⟩
      have h₁ := hmost file hmem
      have h₂ := hle tail.seq ⟨tail, by simp, rfl⟩
      exact rank_injective (by omega)

theorem tailSeq?_eq_none_iff {tables : QueueTables} {key : QueueKey} :
    tables.tailSeq? key = none ↔ ∀ seq, tables.lists key seq = false := by
  rw [← headSeq?_eq_none_iff, tailSeq?, headSeq?, Option.map_eq_none_iff, Option.map_eq_none_iff,
    List.getLast?_eq_none_iff, List.head?_eq_none_iff]

/-- What is listed tells which number is the last one. -/
theorem tailSeq?_congr {tables after : QueueTables} {key : QueueKey}
    (h : ∀ seq, tables.lists key seq = after.lists key seq) : tables.tailSeq? key = after.tailSeq? key := by
  apply Option.ext
  intro seq
  simp only [tailSeq?_eq_some_iff, h]

/-! ## Changes of rows -/

/-- What stands under a key, row by row. -/
theorem lookup_row {α β : Type} [DecidableEq α] (row : α × β) (rest : List (α × β)) (key : α) :
    List.lookup key (row :: rest) = if key = row.1 then some row.2 else List.lookup key rest := by
  rw [List.lookup_cons]
  by_cases h : key = row.1
  · simp [h]
  · rw [beq_eq_false_iff_ne.mpr h, if_neg h]

/-- What stands under a key when the rows of one key have changed. -/
theorem lookup_map_row {α β : Type} [DecidableEq α] (rows : List (α × β)) (key other : α) (change : β → β) :
    (rows.map fun row ↦ if row.1 = key then (key, change row.2) else row).lookup other =
      if other = key then (rows.lookup key).map change else rows.lookup other := by
  induction rows with
  | nil => split <;> rfl
  | cons row rest ih =>
    rw [List.map_cons, lookup_row, lookup_row, lookup_row, ih]
    by_cases hrow : row.1 = key
    · by_cases hother : other = key <;> simp [hrow, hother]
    · by_cases hother : other = key
      · simp [hrow, hother, Ne.symm hrow]
      · simp [hrow, hother]

section Changes

variable (tables : QueueTables) (key other : QueueKey) (seq : UInt64)

@[simp] theorem lists_setOffset (offset : Nat) :
    (tables.setOffset key offset).lists other seq = tables.lists other seq := rfl

@[simp] theorem offset?_addFile (file : FileRef) :
    (tables.addFile key file).offset? other = tables.offset? other := rfl

@[simp] theorem offset?_removeFile (removed : UInt64) :
    (tables.removeFile key removed).offset? other = tables.offset? other := rfl

theorem offset?_setOffset (offset : Nat) :
    (tables.setOffset key offset).offset? other =
      if other = key then (tables.offset? key).map fun _ ↦ offset else tables.offset? other :=
  lookup_map_row tables.offsets key other fun _ ↦ offset

theorem lists_addFile (file : FileRef) :
    (tables.addFile key file).lists other seq =
      (tables.lists other seq || (key == other && file.seq == seq)) := by
  simp [lists, addFile]

theorem lists_removeFile (removed : UInt64) :
    (tables.removeFile key removed).lists other seq =
      (tables.lists other seq && !(other == key && seq == removed)) := by
  rw [Bool.eq_iff_iff, Bool.and_eq_true, lists_iff, lists_iff]
  simp only [removeFile, List.mem_filter, Bool.not_eq_true', Bool.and_eq_false_iff, beq_eq_false_iff_ne]
  constructor
  · rintro ⟨file, ⟨hmem, hkept⟩, rfl⟩
    exact ⟨⟨file, hmem, rfl⟩, hkept⟩
  · rintro ⟨⟨file, hmem, rfl⟩, hkept⟩
    exact ⟨file, ⟨hmem, hkept⟩, rfl⟩

theorem lists_remove :
    (tables.remove key).lists other seq = (tables.lists other seq && other != key) := by
  rw [Bool.eq_iff_iff, Bool.and_eq_true, lists_iff, lists_iff]
  simp only [remove, List.mem_filter]
  constructor
  · rintro ⟨file, ⟨hmem, hkept⟩, hseq⟩
    exact ⟨⟨file, hmem, hseq⟩, hkept⟩
  · rintro ⟨⟨file, hmem, hseq⟩, hkept⟩
    exact ⟨file, ⟨hmem, hkept⟩, hseq⟩

theorem offset?_remove :
    (tables.remove key).offset? other = if other = key then none else tables.offset? other := by
  obtain ⟨offsets, files⟩ := tables
  simp only [offset?, remove]
  induction offsets with
  | nil => split <;> rfl
  | cons row rest ih =>
    rw [List.filter_cons, lookup_row]
    by_cases hrow : row.1 = key
    · rw [if_neg (by simp [hrow]), ih, hrow]
      by_cases hother : other = key <;> simp [hother]
    · rw [if_pos (by simp [hrow]), lookup_row, ih]
      by_cases hother : other = key
      · rw [if_pos hother, if_pos hother, hother, if_neg (Ne.symm hrow)]
      · rw [if_neg hother, if_neg hother]

end Changes

/-- The new name of a queue stands for what the old one did, and the old one for nothing. -/
theorem offset?_rename {tables : QueueTables} {key target : QueueKey}
    (habsent : tables.offset? target = none) (other : QueueKey) :
    (tables.rename key target).offset? other =
      if other = target then tables.offset? key
      else if other = key then none else tables.offset? other := by
  obtain ⟨offsets, files⟩ := tables
  simp only [offset?, rename] at *
  induction offsets with
  | nil => split <;> simp
  | cons row rest ih =>
    rw [lookup_row] at habsent
    have hne : target ≠ row.1 := by
      rintro rfl
      simp at habsent
    rw [if_neg hne] at habsent
    rw [List.map_cons, lookup_row, lookup_row, lookup_row, ih habsent]
    by_cases hrow : row.1 = key
    · rw [if_pos hrow, if_pos hrow.symm, hrow]
      by_cases hother : other = target
      · simp [hother]
      · rw [if_neg hother, if_neg hother, if_neg hother]
        by_cases hkey : other = key <;> simp only [hkey, if_true, if_false]
    · rw [if_neg hrow, if_neg (Ne.symm hrow)]
      by_cases hother : other = target
      · rw [if_pos hother, if_pos hother, hother, if_neg hne]
      · rw [if_neg hother, if_neg hother]
        by_cases hkey : other = key
        · rw [if_pos hkey, if_pos hkey, hkey, if_neg (Ne.symm hrow)]
        · rw [if_neg hkey, if_neg hkey]

theorem lists_rename (tables : QueueTables) (key target other : QueueKey) (seq : UInt64) :
    (tables.rename key target).lists other seq = true ↔
      (other = target ∧ tables.lists key seq = true) ∨
        (other ≠ key ∧ tables.lists other seq = true) := by
  simp only [lists_iff, rename, List.mem_map, Prod.exists]
  constructor
  · rintro ⟨file, ⟨owner, moved, hmem, hrow⟩, rfl⟩
    by_cases howner : owner = key
    · subst howner
      rw [if_pos rfl] at hrow
      injection hrow with htarget hfile
      subst hfile
      exact .inl ⟨htarget.symm, moved, hmem, rfl⟩
    · rw [if_neg howner] at hrow
      injection hrow with hother hfile
      subst hother hfile
      exact .inr ⟨howner, moved, hmem, rfl⟩
  · rintro (⟨rfl, file, hmem, rfl⟩ | ⟨hne, file, hmem, rfl⟩)
    · exact ⟨file, ⟨key, file, hmem, if_pos rfl⟩, rfl⟩
    · exact ⟨file, ⟨other, file, hmem, if_neg hne⟩, rfl⟩

/-! ## Files that are added unless their number is there -/

@[simp] theorem offset?_addMissing (tables : QueueTables) (key other : QueueKey) (file : FileRef) :
    (tables.addMissing key file).offset? other = tables.offset? other := by
  unfold addMissing
  split <;> rfl

theorem lists_addMissing (tables : QueueTables) (key other : QueueKey) (file : FileRef)
    (seq : UInt64) :
    (tables.addMissing key file).lists other seq =
      (tables.lists other seq || (key == other && file.seq == seq)) := by
  unfold addMissing
  split
  case isTrue hthere =>
    rw [Bool.eq_iff_iff, Bool.or_eq_true, Bool.and_eq_true, beq_iff_eq, beq_iff_eq]
    constructor
    · exact .inl
    · rintro (h | ⟨rfl, rfl⟩)
      · exact h
      · exact hthere
  case isFalse => exact lists_addFile tables key other seq file

@[simp] theorem offset?_foldl_addMissing (files : List FileRef) (tables : QueueTables)
    (key other : QueueKey) :
    (files.foldl (fun tables file ↦ tables.addMissing key file) tables).offset? other =
      tables.offset? other := by
  induction files generalizing tables with
  | nil => rfl
  | cons file rest ih => rw [List.foldl_cons, ih, offset?_addMissing]

theorem lists_foldl_addMissing (files : List FileRef) (tables : QueueTables)
    (key other : QueueKey) (seq : UInt64) :
    (files.foldl (fun tables file ↦ tables.addMissing key file) tables).lists other seq = true ↔
      tables.lists other seq = true ∨ (other = key ∧ ∃ file ∈ files, file.seq = seq) := by
  induction files generalizing tables with
  | nil => simp
  | cons file rest ih =>
    rw [List.foldl_cons, ih, lists_addMissing]
    simp only [Bool.or_eq_true, Bool.and_eq_true, beq_iff_eq, List.mem_cons, exists_eq_or_imp]
    constructor
    · rintro ((h | ⟨rfl, hseq⟩) | ⟨hkey, hrest⟩)
      · exact .inl h
      · exact .inr ⟨rfl, .inl hseq⟩
      · exact .inr ⟨hkey, .inr hrest⟩
    · rintro (h | ⟨rfl, hseq | hrest⟩)
      · exact .inl (.inl h)
      · exact .inl (.inr ⟨rfl, hseq⟩)
      · exact .inr ⟨rfl, hrest⟩

end LogShipping.QueueTables
