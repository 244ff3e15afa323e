import Mathlib.Data.List.Nodup
import LogShipping.Proofs.Verify.Joining

/-!
# What the verdicts tell

A row of the local table counts if a cell of it has global scope, is asked for and lies in the range. It is good
if the peer has a row of its key with the same such cells, where of the peer's row only families are looked at
that occur in the local table, in whichever of its rows. So a row that the peer holds identically is good, but a
good row may have cells on the peer that it lacks, as long as no local row has a cell of their families.
-/

namespace LogShipping.Verify

/-! ## What is asked for -/

/-- A family occurs among the cells of some rows. -/
def Occurs (rows : List Row) (family : String) : Prop :=
  ∃ row ∈ rows, ∃ cell ∈ row.cells, cell.column.family = family

instance (rows : List Row) (family : String) : Decidable (Occurs rows family) :=
  inferInstanceAs (Decidable (∃ row ∈ rows, ∃ cell ∈ row.cells, cell.column.family = family))

namespace Arguments

variable {arguments : Arguments} {schema : Schema} {rows localRows peerRows : List Row} {row other : Row}

/-- The cell has global scope, its family is among those named, if any are, and its timestamp is in the range. -/
def asks (arguments : Arguments) (schema : Schema) (cell : RowCell) : Bool :=
  schema.isGlobal arguments.table cell.column.family &&
    (arguments.families.isEmpty || arguments.families.contains cell.column.family) &&
    arguments.inRange cell.timestamp

/-- What is asked for of a row. -/
def asked (arguments : Arguments) (schema : Schema) (row : Row) : List (String × Bytes × Bytes) :=
  (row.cells.filter (arguments.asks schema)).map RowCell.triple

/-- What of this belongs to families that occur among the local rows. -/
def compared (arguments : Arguments) (schema : Schema) (localRows : List Row) (row : Row) :
    List (String × Bytes × Bytes) :=
  (arguments.asked schema row).filter fun triple ↦ Occurs localRows triple.1

theorem mem_wanted_iff {family : String} :
    family ∈ arguments.wanted schema rows ↔
      Occurs rows family ∧ (schema.isGlobal arguments.table family &&
        (arguments.families.isEmpty || arguments.families.contains family)) = true := by
  rw [wanted, List.mem_filter]
  simp only [List.mem_flatMap, List.mem_map, Occurs]

/-- The order of the local rows does not matter. -/
theorem inScope_wanted_perm (hperm : rows.Perm localRows) (row : Row) :
    arguments.inScope (arguments.wanted schema rows) row =
      arguments.inScope (arguments.wanted schema localRows) row := by
  have hsame (family : String) : (arguments.wanted schema rows).contains family =
      (arguments.wanted schema localRows).contains family := by
    rw [Bool.eq_iff_iff, List.contains_iff_mem, List.contains_iff_mem, mem_wanted_iff, mem_wanted_iff]
    simp only [Occurs, hperm.mem_iff]
  simp only [inScope, hsame]

theorem digest?_wanted_perm (hperm : rows.Perm localRows) :
    arguments.digest? (arguments.wanted schema rows) = arguments.digest? (arguments.wanted schema localRows) := by
  funext row
  rw [digest?, rowText?, inScope_wanted_perm hperm, digest?, rowText?]

/-- What is compared of a row is what is asked for, of families among the local rows. -/
theorem triples_wanted (row : Row) :
    arguments.triples (arguments.wanted schema localRows) row = arguments.compared schema localRows row := by
  rw [triples, inScope, compared, asked, List.filter_map, List.filter_filter]
  congr 1
  refine List.filter_congr fun cell _ ↦ ?_
  rw [Bool.eq_iff_iff]
  simp only [Bool.and_eq_true, List.contains_iff_mem, mem_wanted_iff, asks, Function.comp_apply,
    decide_eq_true_eq, and_assoc]
  exact Iff.rfl

/-- All that is asked for of a local row is compared. -/
theorem compared_of_mem (h : row ∈ localRows) :
    arguments.compared schema localRows row = arguments.asked schema row := by
  refine List.filter_eq_self.mpr fun triple hmem ↦ ?_
  obtain ⟨cell, hcell, rfl⟩ := List.mem_map.mp hmem
  exact decide_eq_true ⟨row, h, cell, (List.mem_filter.mp hcell).1, rfl⟩

/-! ## One row -/

/-- The peer has a row of the same key in which the same is compared. -/
def Matched (arguments : Arguments) (schema : Schema) (localRows peerRows : List Row) (row : Row) : Prop :=
  ∃ other ∈ peerRows, other.key = row.key ∧
    arguments.compared schema localRows other = arguments.compared schema localRows row

instance (row : Row) : Decidable (arguments.Matched schema localRows peerRows row) :=
  inferInstanceAs (Decidable (∃ other ∈ peerRows, _ ∧ _))

/-- The digest has no collision on the octets of two rows that are compared. -/
def Separated (arguments : Arguments) (schema : Schema) (localRows peerRows : List Row) : Prop :=
  ∀ row ∈ localRows, ∀ other ∈ peerRows, other.key = row.key →
    arguments.digest? (arguments.wanted schema localRows) other =
      arguments.digest? (arguments.wanted schema localRows) row →
    arguments.rowText? (arguments.wanted schema localRows) other =
      arguments.rowText? (arguments.wanted schema localRows) row

instance : Decidable (arguments.Separated schema localRows peerRows) :=
  inferInstanceAs (Decidable (∀ row ∈ localRows, ∀ other ∈ peerRows, _ → _ → _))

/-- What two scans have to satisfy to be compared rightly. -/
structure Comparable (arguments : Arguments) (schema : Schema) (localRows peerRows : List Row) : Prop where
  localKeys : Distinct localRows
  peerKeys : Distinct peerRows
  localFits : ∀ row ∈ localRows, row.Fits
  peerFits : ∀ row ∈ peerRows, row.Fits
  separated : arguments.Separated schema localRows peerRows

instance : Decidable (arguments.Comparable schema localRows peerRows) :=
  decidable_of_iff (_ ∧ _ ∧ _ ∧ _ ∧ _) ⟨fun h ↦ ⟨h.1, h.2.1, h.2.2.1, h.2.2.2.1, h.2.2.2.2⟩,
    fun h ↦ ⟨h.localKeys, h.peerKeys, h.localFits, h.peerFits, h.separated⟩⟩

namespace Comparable

variable (h : arguments.Comparable schema localRows peerRows)

include h

/-- The digests tell whether the same is compared. -/
theorem digest?_eq_iff (hrow : row ∈ localRows) (hother : other ∈ peerRows) (hkey : other.key = row.key) :
    arguments.digest? (arguments.wanted schema localRows) other =
        arguments.digest? (arguments.wanted schema localRows) row ↔
      arguments.compared schema localRows other = arguments.compared schema localRows row := by
  rw [← triples_wanted, ← triples_wanted, ← rowText?_eq_iff (h.peerFits other hother) (h.localFits row hrow)]
  constructor
  · exact h.separated row hrow other hother hkey
  · intro htext
    rw [digest?, digest?, htext]

/-- The verdict on a row: it has to be matched, if anything is compared. -/
theorem verdict?_eq (hrow : row ∈ localRows) :
    arguments.verdict? (arguments.wanted schema localRows) peerRows row =
      if arguments.asked schema row = [] then none
      else some (decide (arguments.Matched schema localRows peerRows row)) := by
  have hnothing : arguments.asked schema row = [] ↔
      arguments.digest? (arguments.wanted schema localRows) row = none := by
    rw [← compared_of_mem hrow, ← triples_wanted, ← rowText?_eq_none_iff, digest?, Option.map_eq_none_iff]
  rw [verdict?]
  cases hdigest : arguments.digest? (arguments.wanted schema localRows) row with
  | none => rw [if_pos (hnothing.mpr hdigest), Option.map_none]
  | some digest =>
    have hsome : arguments.asked schema row ≠ [] := fun hnone ↦ by
      rw [hnothing.mp hnone] at hdigest
      cases hdigest
    rw [if_neg hsome, Option.map_some, Option.some.injEq, Bool.eq_iff_iff, beq_iff_eq, decide_eq_true_iff,
      Option.bind_eq_some_iff, ← hdigest]
    constructor
    · rintro ⟨other, hfound, hsame⟩
      obtain ⟨hother, hkey⟩ := (rowOf?_eq_some_iff h.peerKeys).mp hfound
      exact ⟨other, hother, hkey, (h.digest?_eq_iff hrow hother hkey).mp hsame⟩
    · rintro ⟨other, hother, hkey, hsame⟩
      exact ⟨other, (rowOf?_eq_some_iff h.peerKeys).mpr ⟨hother, hkey⟩,
        (h.digest?_eq_iff hrow hother hkey).mpr hsame⟩

/-- The verdicts that the job comes to are those on the rows, one for each row of which anything is compared. -/
theorem judge_eq : arguments.judge (arguments.wanted schema (Row.sort localRows)) (Row.sort localRows)
      (Row.sort peerRows) =
    (Row.sort localRows).filterMap fun row ↦
      if arguments.asked schema row = [] then none
      else some (row, decide (arguments.Matched schema localRows peerRows row)) := by
  rw [judge_eq_filterMap (ascending_sort h.localKeys) (ascending_sort h.peerKeys)]
  refine List.filterMap_congr fun row hmem ↦ ?_
  have hverdict : arguments.verdict? (arguments.wanted schema (Row.sort localRows)) (Row.sort peerRows) row =
      arguments.verdict? (arguments.wanted schema localRows) peerRows row := by
    rw [verdict?, verdict?, digest?_wanted_perm (sort_perm localRows), rowOf?_sort h.peerKeys]
  rw [hverdict, h.verdict?_eq ((sort_perm localRows).mem_iff.mp hmem)]
  split <;> rfl

end Comparable

/-- The tally of a comparison: of the rows of which anything is asked for, the matched ones are good and the
others are bad. -/
theorem compare_eq_countP (h : arguments.Comparable schema localRows peerRows) :
    arguments.compare schema localRows peerRows =
      ⟨localRows.countP fun row ↦
          arguments.asked schema row ≠ [] ∧ arguments.Matched schema localRows peerRows row,
        localRows.countP fun row ↦
          arguments.asked schema row ≠ [] ∧ ¬arguments.Matched schema localRows peerRows row⟩ := by
  have hperm := sort_perm localRows
  rw [compare, join_eq_foldl_judge, h.judge_eq, foldl_add, Nat.zero_add, Nat.zero_add, List.count, List.count,
    List.countP_map, List.countP_map, List.countP_filterMap, List.countP_filterMap, hperm.countP_eq,
    hperm.countP_eq]
  congr 2
  · funext row
    by_cases hasked : arguments.asked schema row = [] <;> simp [hasked]
  · funext row
    by_cases hasked : arguments.asked schema row = [] <;> simp [hasked]

/-- Whatever order the scans are in, the job counts the local rows of which anything is compared: as good those
for which the peer has a row of the same key in which the same is compared, and as bad all others. -/
theorem compare_eq_lookups (h : arguments.Comparable schema localRows peerRows) :
    arguments.compare schema localRows peerRows =
      ⟨localRows.countP fun row ↦ arguments.compared schema localRows row ≠ [] ∧
          ∃ other ∈ peerRows, other.key = row.key ∧
            arguments.compared schema localRows other = arguments.compared schema localRows row,
        localRows.countP fun row ↦ arguments.compared schema localRows row ≠ [] ∧
          ¬∃ other ∈ peerRows, other.key = row.key ∧
            arguments.compared schema localRows other = arguments.compared schema localRows row⟩ := by
  rw [compare_eq_countP h]
  congr 1
  · refine List.countP_congr fun row hmem ↦ ?_
    simp only [decide_eq_true_eq, compared_of_mem hmem, Matched]
  · refine List.countP_congr fun row hmem ↦ ?_
    simp only [decide_eq_true_eq, compared_of_mem hmem, Matched]

end Arguments

namespace Sample

def cell (family : String) (timestamp : Int) (value : UInt8) : RowCell := ⟨⟨family, []⟩, timestamp, [value]⟩

/-- Of two families that have global scope, those that occur are compared, up to a point in time. -/
def arguments : Arguments := ⟨"2", "t", [], none, some 5⟩

def schema : Schema := .ofNames ["f", "g"]

/-- Not in order: a row that differs, one to be found, one of which nothing is compared, one that is missing. -/
def localRows : List Row :=
  [⟨[3], [cell "f" 1 1]⟩, ⟨[2], [cell "f" 1 1, cell "h" 1 1]⟩, ⟨[4], [cell "f" 5 1, cell "h" 1 1]⟩,
    ⟨[5], [cell "f" 1 1]⟩]

/-- With rows that the local table lacks in front of these, between them and behind them. -/
def peerRows : List Row :=
  [⟨[6], [cell "f" 1 1]⟩, ⟨[2], [cell "f" 2 1, cell "g" 1 1]⟩, ⟨[1], [cell "f" 1 1]⟩, ⟨[3], [cell "f" 1 2]⟩,
    ⟨[4], [cell "f" 1 1]⟩]

theorem comparable : arguments.Comparable schema localRows peerRows := by decide +kernel

end Sample

namespace Arguments

theorem compare_sample :
    Sample.arguments.Comparable Sample.schema Sample.localRows Sample.peerRows ∧
      Sample.arguments.compare Sample.schema Sample.localRows Sample.peerRows = ⟨1, 2⟩ := by
  refine ⟨Sample.comparable, (compare_eq_lookups Sample.comparable).trans ?_⟩
  decide +kernel

end Arguments

/-! ## What a verdict depends on -/

namespace Arguments

variable {arguments : Arguments} {schema : Schema} {localRows peerRows : List Row} {row other : Row}

/-- The verdicts that the job comes to. -/
def verdicts (arguments : Arguments) (schema : Schema) (localRows peerRows : List Row) : List (Row × Bool) :=
  arguments.judge (arguments.wanted schema (Row.sort localRows)) (Row.sort localRows) (Row.sort peerRows)

/-- The peer has a row of the same key in which the same is asked for, whatever family it is of. -/
def Identical (arguments : Arguments) (schema : Schema) (peerRows : List Row) (row : Row) : Prop :=
  ∃ other ∈ peerRows, other.key = row.key ∧ arguments.asked schema other = arguments.asked schema row

theorem compare_eq_foldl_verdicts (arguments : Arguments) (schema : Schema) (localRows peerRows : List Row) :
    arguments.compare schema localRows peerRows =
      ((arguments.verdicts schema localRows peerRows).map (·.2)).foldl Tally.add ⟨0, 0⟩ :=
  join_eq_foldl_judge ..

namespace Comparable

variable (h : arguments.Comparable schema localRows peerRows) (hrow : row ∈ localRows)
  (hasked : arguments.asked schema row ≠ [])

include h hrow hasked

/-- A row of which anything is asked for has one verdict, which tells whether it is matched. -/
theorem mem_verdicts_iff (good : Bool) :
    (row, good) ∈ arguments.verdicts schema localRows peerRows ↔
      good = decide (arguments.Matched schema localRows peerRows row) := by
  rw [verdicts, h.judge_eq, List.mem_filterMap]
  constructor
  · rintro ⟨first, -, hfirst⟩
    split at hfirst
    case isTrue => cases hfirst
    case isFalse =>
      cases hfirst
      rfl
  · rintro rfl
    exact ⟨row, (sort_perm localRows).mem_iff.mpr hrow, if_neg hasked⟩

theorem count_verdicts : ((arguments.verdicts schema localRows peerRows).map (·.1)).count row = 1 := by
  have hjudged : (arguments.verdicts schema localRows peerRows).map (·.1) =
      (Row.sort localRows).filter fun row ↦ arguments.asked schema row ≠ [] := by
    rw [verdicts, h.judge_eq, List.map_filterMap, ← List.filterMap_eq_filter]
    refine List.filterMap_congr fun row _ ↦ ?_
    by_cases hnone : arguments.asked schema row = [] <;> simp [hnone, Option.guard]
  have hnodup : (Row.sort localRows).Nodup :=
    (sort_perm localRows).nodup_iff.mpr (List.Nodup.of_map _ h.localKeys)
  rw [hjudged]
  exact List.count_eq_one_of_mem (hnodup.filter _)
    (List.mem_filter.mpr ⟨(sort_perm localRows).mem_iff.mpr hrow, decide_eq_true hasked⟩)

omit hasked in
/-- What is compared of a row of the peer falls short of what is asked for if and only if some of it is of a
family that occurs in no local row. -/
theorem matched_not_identical_iff :
    arguments.Matched schema localRows peerRows row ∧ ¬arguments.Identical schema peerRows row ↔
      ∃ other ∈ peerRows, other.key = row.key ∧
        arguments.compared schema localRows other = arguments.asked schema row ∧
        ∃ triple ∈ arguments.asked schema other, ¬Occurs localRows triple.1 := by
  rw [Matched, compared_of_mem hrow]
  constructor
  · rintro ⟨⟨other, hother, hkey, hsame⟩, hdifferent⟩
    refine ⟨other, hother, hkey, hsame, ?_⟩
    by_contra hnone
    have hall : arguments.compared schema localRows other = arguments.asked schema other :=
      List.filter_eq_self.mpr fun triple hmem ↦
        decide_eq_true (not_not.mp fun hforeign ↦ hnone ⟨triple, hmem, hforeign⟩)
    exact hdifferent ⟨other, hother, hkey, hall.symm.trans hsame⟩
  · rintro ⟨other, hother, hkey, hsame, triple, hmem, hforeign⟩
    refine ⟨⟨other, hother, hkey, hsame⟩, ?_⟩
    rintro ⟨twin, htwin, hkey', hidentical⟩
    obtain rfl := List.inj_on_of_nodup_map h.peerKeys htwin hother (hkey'.trans hkey.symm)
    -- What is asked for of a local row is of families that occur.
    rw [hidentical] at hmem
    obtain ⟨cell, hcell, rfl⟩ := List.mem_map.mp hmem
    exact hforeign ⟨row, hrow, cell, (List.mem_filter.mp hcell).1, rfl⟩

end Comparable

/-- The tally is that of the verdicts, and a local row of which anything is asked for has exactly one. It is good
if and only if the peer has a row of the same key in which the same is asked for, but for what is of families that
occur in no local row. So a row that the peer holds identically is good whatever else the scans hold; but a good
row is not held identically if and only if the peer's row has more of such families. -/
theorem verdict_iff_compared (h : arguments.Comparable schema localRows peerRows) (hrow : row ∈ localRows)
    (hasked : arguments.asked schema row ≠ []) :
    arguments.compare schema localRows peerRows =
        ((arguments.verdicts schema localRows peerRows).map (·.2)).foldl Tally.add ⟨0, 0⟩ ∧
      ((arguments.verdicts schema localRows peerRows).map (·.1)).count row = 1 ∧
      ((row, true) ∈ arguments.verdicts schema localRows peerRows ↔
        ∃ other ∈ peerRows, other.key = row.key ∧
          (arguments.asked schema other).filter (fun triple ↦ Occurs localRows triple.1) =
            arguments.asked schema row) ∧
      (arguments.Identical schema peerRows row → (row, true) ∈ arguments.verdicts schema localRows peerRows) ∧
      ((row, true) ∈ arguments.verdicts schema localRows peerRows ∧ ¬arguments.Identical schema peerRows row ↔
        ∃ other ∈ peerRows, other.key = row.key ∧
          (arguments.asked schema other).filter (fun triple ↦ Occurs localRows triple.1) =
            arguments.asked schema row ∧
          ∃ triple ∈ arguments.asked schema other, ¬Occurs localRows triple.1) := by
  have hgood : (row, true) ∈ arguments.verdicts schema localRows peerRows ↔
      arguments.Matched schema localRows peerRows row := by
    rw [h.mem_verdicts_iff hrow hasked, eq_comm, decide_eq_true_iff]
  refine ⟨compare_eq_foldl_verdicts .., h.count_verdicts hrow hasked, ?_, ?_, ?_⟩
  · rw [hgood, Matched, compared_of_mem hrow]
    exact Iff.rfl
  · rintro ⟨other, hother, hkey, hsame⟩
    refine hgood.mpr ⟨other, hother, hkey, ?_⟩
    rw [compared, compared, hsame]
  · rw [hgood]
    exact h.matched_not_identical_iff hrow

theorem verdict_sample :
    let row : Row := ⟨[2], [Sample.cell "f" 1 1, Sample.cell "h" 1 1]⟩
    row ∈ Sample.localRows ∧ Sample.arguments.asked Sample.schema row ≠ [] ∧
      (row, true) ∈ Sample.arguments.verdicts Sample.schema Sample.localRows Sample.peerRows ∧
      ¬Sample.arguments.Identical Sample.schema Sample.peerRows row := by
  have hrow : (⟨[2], [Sample.cell "f" 1 1, Sample.cell "h" 1 1]⟩ : Row) ∈ Sample.localRows := by
    decide +kernel
  have hasked : Sample.arguments.asked Sample.schema ⟨[2], [Sample.cell "f" 1 1, Sample.cell "h" 1 1]⟩ ≠ [] := by
    decide +kernel
  exact ⟨hrow, hasked, (verdict_iff_compared Sample.comparable hrow hasked).2.2.2.2.mpr (by decide +kernel)⟩

/-- The peer's row has a cell more, of a family that has global scope. The local row is good nevertheless, and
bad once another local row has a cell of this family. -/
theorem good_beside_foreign_family :
    Sample.arguments.compare Sample.schema [⟨[1], [Sample.cell "f" 1 1]⟩]
        [⟨[1], [Sample.cell "f" 1 1, Sample.cell "g" 1 2]⟩] = ⟨1, 0⟩ ∧
      Sample.arguments.asked Sample.schema ⟨[1], [Sample.cell "f" 1 1, Sample.cell "g" 1 2]⟩ ≠
        Sample.arguments.asked Sample.schema ⟨[1], [Sample.cell "f" 1 1]⟩ ∧
      Sample.arguments.compare Sample.schema [⟨[1], [Sample.cell "f" 1 1]⟩, ⟨[2], [Sample.cell "g" 1 3]⟩]
        [⟨[1], [Sample.cell "f" 1 1, Sample.cell "g" 1 2]⟩] = ⟨0, 2⟩ := by
  refine ⟨?_, by decide +kernel, ?_⟩
  · rw [compare_eq_countP (by decide +kernel)]
    decide +kernel
  · rw [compare_eq_countP (by decide +kernel)]
    decide +kernel

end Arguments

end LogShipping.Verify
