import LogShipping.Proofs.Verify.Joining

/-!
# What the digest of a row is taken of

A row keeps its cells in the order of their columns, one for each column. The digest is taken of the cells of the
wanted families whose timestamps lie in the range asked for, in this order. What is hashed tells the families,
qualifiers and values of these cells one by one, and nothing else: neither where one part ends and the next
begins nor how many cells there are is left open, and a timestamp matters only as far as it decides whether its
cell counts. There is no digest if and only if no cell counts.
-/

namespace LogShipping.Verify

/-! ## The order of columns -/

instance : Std.TransCmp Column.order :=
  have : Std.TransCmp fun x y : Column ↦ Bytes.order x.qualifier y.qualifier :=
    { eq_swap := Std.OrientedCmp.eq_swap, isLE_trans := Std.TransCmp.isLE_trans }
  inferInstanceAs (Std.TransCmp (compareLex (compareOn Column.family) fun x y ↦
    Bytes.order x.qualifier y.qualifier))

instance : Std.LawfulEqCmp Column.order where
  eq_of_compare {x y} h := by
    obtain ⟨hfamily, hqualifier⟩ := Ordering.then_eq_eq.mp h
    cases x
    cases y
    exact congrArg₂ Column.mk (Std.LawfulEqCmp.eq_of_compare hfamily) (Bytes.order_eq_iff.mp hqualifier)

/-- The cells are in order of their columns, and no two are of the same. -/
def InOrder (cells : List RowCell) : Prop := cells.Pairwise fun x y ↦ x.column.order y.column = .lt

namespace Row

variable {cell other : RowCell} {cells : List RowCell}

theorem eq_or_mem_of_mem_insert (h : other ∈ insert cell cells) : other = cell ∨ other ∈ cells := by
  induction cells with
  | nil => exact .inl (List.mem_singleton.mp h)
  | cons first rest ih =>
    rw [insert] at h
    split at h
    case h_1 => exact List.mem_cons.mp h
    case h_2 => exact (List.mem_cons.mp h).imp_right (List.mem_cons_of_mem first)
    case h_3 =>
      rcases List.mem_cons.mp h with rfl | hmem
      · exact .inr List.mem_cons_self
      · exact (ih hmem).imp_right (List.mem_cons_of_mem first)

theorem inOrder_insert (h : InOrder cells) (cell : RowCell) : InOrder (insert cell cells) := by
  induction cells with
  | nil => exact List.pairwise_singleton _ _
  | cons first rest ih =>
    obtain ⟨hfirst, hrest⟩ := List.pairwise_cons.mp h
    rw [insert]
    cases horder : cell.column.order first.column with
    | lt =>
      refine List.pairwise_cons.mpr ⟨fun other hmem ↦ ?_, h⟩
      rcases List.mem_cons.mp hmem with rfl | hmem
      · exact horder
      · exact Std.TransCmp.lt_trans horder (hfirst other hmem)
    | eq =>
      have hcolumn := Std.LawfulEqCmp.eq_of_compare horder
      exact List.pairwise_cons.mpr ⟨fun other hmem ↦ hcolumn ▸ hfirst other hmem, hrest⟩
    | gt =>
      refine List.pairwise_cons.mpr ⟨fun other hmem ↦ ?_, ih hrest⟩
      rcases eq_or_mem_of_mem_insert hmem with rfl | hmem
      · exact Std.OrientedCmp.gt_iff_lt.mp horder
      · exact hfirst other hmem

/-- Whatever order cells are given in, a row has them in the order of their columns. -/
theorem inOrder_ofCells (key : Bytes) (cells : List RowCell) : InOrder (ofCells key cells).cells := by
  apply List.foldlRecOn cells
  · exact List.Pairwise.nil
  · intro sorted hsorted cell _
    exact inOrder_insert hsorted cell

end Row

/-! ## The cells that count -/

/-- The cell with another timestamp. -/
def RowCell.retime (clock : RowCell → Int) (cell : RowCell) : RowCell := { cell with timestamp := clock cell }

/-- The row with other timestamps. -/
def Row.retime (clock : RowCell → Int) (row : Row) : Row := { row with cells := row.cells.map (·.retime clock) }

namespace Arguments

variable {arguments : Arguments} {wanted : List String} {row other : Row}

/-- The cell is of a wanted family, and its timestamp is neither before the start nor at the stop or behind it. -/
def Counts (arguments : Arguments) (wanted : List String) (cell : RowCell) : Prop :=
  cell.column.family ∈ wanted ∧ (∀ start ∈ arguments.start, start ≤ cell.timestamp) ∧
    ∀ stop ∈ arguments.stop, cell.timestamp < stop

instance (cell : RowCell) : Decidable (arguments.Counts wanted cell) := inferInstanceAs (Decidable (_ ∧ _ ∧ _))

/-- The cells of a row that count, in their order. -/
def counted (arguments : Arguments) (wanted : List String) (row : Row) : List RowCell :=
  row.cells.filter fun cell ↦ arguments.Counts wanted cell

theorem inScope_eq_counted (row : Row) : arguments.inScope wanted row = arguments.counted wanted row := by
  refine List.filter_congr fun cell _ ↦ ?_
  rw [Bool.eq_iff_iff, decide_eq_true_iff, Bool.and_eq_true, List.contains_iff_mem, inRange, Bool.and_eq_true,
    Option.all_eq_true, Option.all_eq_true]
  simp only [decide_eq_true_eq]
  exact Iff.rfl

/-! ## Digests -/

/-- The octets that the digest of a row is taken of: those of the cells that count, one after the other. -/
def hashed (arguments : Arguments) (wanted : List String) (row : Row) : Bytes :=
  (arguments.inScope wanted row).flatMap cellText

theorem digest?_eq_digest_hashed (row : Row) :
    arguments.digest? wanted row =
      if arguments.counted wanted row = [] then none
      else some (Digest.Sha256.digest (arguments.hashed wanted row)) := by
  rw [digest?, rowText?, hashed, ← inScope_eq_counted]
  split
  case h_1 hnone => rw [if_pos hnone, Option.map_none]
  case h_2 hsome => rw [if_neg hsome, Option.map_some]

/-! ## Other timestamps -/

section Retime

variable {clock : RowCell → Int}
  (h : ∀ cell ∈ row.cells, arguments.Counts wanted (cell.retime clock) ↔ arguments.Counts wanted cell)

include h

theorem counted_retime :
    arguments.counted wanted (row.retime clock) = (arguments.counted wanted row).map (·.retime clock) := by
  rw [counted, Row.retime, List.filter_map, counted]
  congr 1
  refine List.filter_congr fun cell hmem ↦ ?_
  exact decide_eq_decide.mpr (h cell hmem)

/-- Timestamps are not hashed. -/
theorem hashed_retime : arguments.hashed wanted (row.retime clock) = arguments.hashed wanted row := by
  have hsame (cell : RowCell) : cellText (cell.retime clock) = cellText cell := cellText_congr rfl
  rw [hashed, hashed, inScope_eq_counted, inScope_eq_counted, counted_retime h, List.flatMap_map]
  simp only [hsame]

theorem digest?_retime : arguments.digest? wanted (row.retime clock) = arguments.digest? wanted row := by
  rw [digest?_eq_digest_hashed, digest?_eq_digest_hashed, hashed_retime h, counted_retime h]
  simp only [List.map_eq_nil_iff]

end Retime

/-- What is hashed of two rows is the same if and only if the cells that count have the same families, qualifiers
and values, in the order of the columns. It is hashed unless no cell counts, in which case there is no digest;
and timestamps have no part in it, as long as the same cells count. -/
theorem hashed_eq_iff_triples (arguments : Arguments) (wanted : List String) (hrow : row.Fits)
    (hother : other.Fits) :
    (arguments.hashed wanted row = arguments.hashed wanted other ↔
        (arguments.counted wanted row).map RowCell.triple = (arguments.counted wanted other).map RowCell.triple) ∧
      arguments.digest? wanted row =
        (if arguments.counted wanted row = [] then none
        else some (Digest.Sha256.digest (arguments.hashed wanted row))) ∧
      (∀ clock : RowCell → Int,
        (∀ cell ∈ row.cells, arguments.Counts wanted (cell.retime clock) ↔ arguments.Counts wanted cell) →
          arguments.hashed wanted (row.retime clock) = arguments.hashed wanted row ∧
            arguments.digest? wanted (row.retime clock) = arguments.digest? wanted row) ∧
      ∀ key cells, InOrder (arguments.counted wanted (Row.ofCells key cells)) := by
  have hcells {row : Row} (hfits : row.Fits) : ∀ cell ∈ arguments.counted wanted row, cell.Fits :=
    fun cell hmem ↦ hfits cell (List.mem_filter.mp hmem).1
  refine ⟨?_, digest?_eq_digest_hashed row, ?_, ?_⟩
  · rw [hashed, hashed, inScope_eq_counted, inScope_eq_counted]
    exact flatMap_cellText_inj (hcells hrow) (hcells hother)
  · intro clock hclock
    exact ⟨hashed_retime hclock, digest?_retime hclock⟩
  · intro key cells
    exact (Row.inOrder_ofCells key cells).filter _

/-- Two rows in which an octet of the qualifier stands at the front of the value. Behind the family they have the
same octets, but their lengths tell them apart; and an earlier timestamp leaves the digest as it is. -/
theorem hashed_eq_iff_triples_shifted :
    let arguments : Arguments := ⟨"2", "t", [], none, some 5⟩
    let row : Row := ⟨[1], [⟨⟨"f", [1, 2]⟩, 4, [3]⟩]⟩
    let other : Row := ⟨[1], [⟨⟨"f", [1]⟩, 4, [2, 3]⟩]⟩
    row.Fits ∧ other.Fits ∧ arguments.hashed ["f"] row ≠ arguments.hashed ["f"] other ∧
      arguments.digest? ["f"] (row.retime fun _ ↦ 0) = arguments.digest? ["f"] row ∧
      arguments.digest? ["f"] (row.retime fun _ ↦ 0) ≠ none := by
  intro arguments row other
  have hrow : row.Fits := by decide +kernel
  have hother : other.Fits := by decide +kernel
  obtain ⟨hiff, hdigest, hretime, -⟩ := hashed_eq_iff_triples arguments ["f"] hrow hother
  have hsame := (hretime (fun _ ↦ 0) (by decide +kernel)).2
  refine ⟨hrow, hother, fun h ↦ ?_, hsame, ?_⟩
  · exact absurd (hiff.mp h) (by decide +kernel)
  · rw [hsame, hdigest, if_neg (by decide +kernel)]
    exact Option.some_ne_none _

end Arguments

end LogShipping.Verify
