import LogShipping.Proofs.Json.Leaves
import LogShipping.Proofs.Log.Frames
import LogShipping.Verify.Comparison

/-!
# The octets that rows are compared by

Of each cell that counts, the family, the qualifier and the value are written one after the other, each behind
its length in eight octets. So no part runs into another, and the octets of a row tell the list of these triples,
as long as the lengths fit in their octets. A cell takes octets even if its parts are empty, so they also tell
where the list ends.
-/

namespace LogShipping

namespace Bytes

theorem ofText_injective : Function.Injective ofText := by
  intro x y h
  have htexts := congrArg text? h
  rwa [text?_ofText, text?_ofText, Option.some.injEq] at htexts

theorem length_bigEndian (width value : Nat) : (bigEndian width value).length = width := by
  rw [bigEndian, List.length_reverse, length_littleEndian]

theorem bigEndian_injective {width x y : Nat} (hx : x < 256 ^ width) (hy : y < 256 ^ width)
    (h : bigEndian width x = bigEndian width y) : x = y := by
  have hnumbers := congrArg ofLittleEndian (List.reverse_inj.mp h)
  rwa [ofLittleEndian_littleEndian, ofLittleEndian_littleEndian, Nat.mod_eq_of_lt hx, Nat.mod_eq_of_lt hy]
    at hnumbers

end Bytes

namespace Verify

/-! ## Parts -/

/-- The length of a part can be written in its eight octets. -/
def Fits (bytes : Bytes) : Prop := bytes.length < 2 ^ 64

instance (bytes : Bytes) : Decidable (Fits bytes) := inferInstanceAs (Decidable (_ < _))

theorem part_append_inj {x y more more' : Bytes} (hx : Fits x) (hy : Fits y)
    (h : part x ++ more = part y ++ more') : x = y ∧ more = more' := by
  rw [part, part, List.append_assoc, List.append_assoc] at h
  obtain ⟨hnumber, hrest⟩ := List.append_inj h (by rw [Bytes.length_bigEndian, Bytes.length_bigEndian])
  have hlength := Bytes.bigEndian_injective (by simpa [Fits] using hx) (by simpa [Fits] using hy) hnumber
  exact List.append_inj hrest hlength

/-! ## Cells -/

namespace RowCell

/-- What is compared of a cell. -/
def triple (cell : RowCell) : String × Bytes × Bytes :=
  (cell.column.family, cell.column.qualifier, cell.value)

/-- The lengths of all that is compared can be written. -/
structure Fits (cell : RowCell) : Prop where
  family : Verify.Fits (Bytes.ofText cell.column.family)
  qualifier : Verify.Fits cell.column.qualifier
  value : Verify.Fits cell.value

instance (cell : RowCell) : Decidable cell.Fits :=
  decidable_of_iff (_ ∧ _ ∧ _) ⟨fun h ↦ ⟨h.1, h.2.1, h.2.2⟩, fun h ↦ ⟨h.family, h.qualifier, h.value⟩⟩

end RowCell

variable {x y : RowCell} {xs ys : List RowCell}

theorem cellText_congr (h : x.triple = y.triple) : cellText x = cellText y := by
  obtain ⟨hfamily, hqualifier, hvalue⟩ : x.column.family = y.column.family ∧
      x.column.qualifier = y.column.qualifier ∧ x.value = y.value := by
    simpa [RowCell.triple] using h
  rw [cellText, cellText, hfamily, hqualifier, hvalue]

theorem cellText_append_inj {more more' : Bytes} (hx : x.Fits) (hy : y.Fits)
    (h : cellText x ++ more = cellText y ++ more') : x.triple = y.triple ∧ more = more' := by
  simp only [cellText, List.append_assoc] at h
  obtain ⟨hfamily, h⟩ := part_append_inj hx.family hy.family h
  obtain ⟨hqualifier, h⟩ := part_append_inj hx.qualifier hy.qualifier h
  obtain ⟨hvalue, hmore⟩ := part_append_inj hx.value hy.value h
  rw [RowCell.triple, RowCell.triple, Bytes.ofText_injective hfamily, hqualifier, hvalue]
  exact ⟨rfl, hmore⟩

theorem cellText_ne_nil (cell : RowCell) : cellText cell ≠ [] := by
  intro h
  have hlength := congrArg List.length h
  rw [cellText, part, List.length_append, List.length_append, List.length_append, Bytes.length_bigEndian,
    List.length_nil] at hlength
  omega

/-- The octets of some cells tell the triples of these cells. -/
theorem flatMap_cellText_inj (hx : ∀ cell ∈ xs, cell.Fits) (hy : ∀ cell ∈ ys, cell.Fits) :
    xs.flatMap cellText = ys.flatMap cellText ↔ xs.map RowCell.triple = ys.map RowCell.triple := by
  induction xs generalizing ys with
  | nil =>
    cases ys with
    | nil => exact iff_of_true rfl rfl
    | cons y ys =>
      refine iff_of_false (fun h ↦ ?_) (by simp)
      rw [List.flatMap_cons] at h
      exact cellText_ne_nil y (List.append_eq_nil_iff.mp h.symm).1
  | cons x xs ih =>
    cases ys with
    | nil =>
      refine iff_of_false (fun h ↦ ?_) (by simp)
      rw [List.flatMap_cons] at h
      exact cellText_ne_nil x (List.append_eq_nil_iff.mp h).1
    | cons y ys =>
      have hrest := ih (fun cell hmem ↦ hx cell (List.mem_cons_of_mem _ hmem))
        (fun cell hmem ↦ hy cell (List.mem_cons_of_mem _ hmem))
      rw [List.flatMap_cons, List.flatMap_cons, List.map_cons, List.map_cons, List.cons.injEq, ← hrest]
      constructor
      · exact cellText_append_inj (hx x List.mem_cons_self) (hy y List.mem_cons_self)
      · rintro ⟨hfirst, hmore⟩
        rw [cellText_congr hfirst, hmore]

/-! ## Rows -/

/-- The lengths of all that is compared of a row can be written. -/
def Row.Fits (row : Row) : Prop := ∀ cell ∈ row.cells, cell.Fits

instance (row : Row) : Decidable row.Fits := inferInstanceAs (Decidable (∀ cell ∈ row.cells, cell.Fits))

namespace Arguments

variable {arguments : Arguments} {wanted : List String} {row other : Row}

/-- What is compared of a row. -/
def triples (arguments : Arguments) (wanted : List String) (row : Row) : List (String × Bytes × Bytes) :=
  (arguments.inScope wanted row).map RowCell.triple

theorem rowText?_eq_none_iff : arguments.rowText? wanted row = none ↔ arguments.triples wanted row = [] := by
  rw [rowText?, triples, List.map_eq_nil_iff]
  split
  case h_1 hnone => exact iff_of_true rfl hnone
  case h_2 hsome => exact iff_of_false nofun hsome

theorem rowText?_eq (h : arguments.triples wanted row ≠ []) :
    arguments.rowText? wanted row = some ((arguments.inScope wanted row).flatMap cellText) := by
  rw [triples, ne_eq, List.map_eq_nil_iff] at h
  rw [rowText?]
  split
  case h_1 hnone => exact absurd hnone h
  case h_2 => rfl

/-- Two rows have the same octets if and only if the same is compared of them. -/
theorem rowText?_eq_iff (hrow : row.Fits) (hother : other.Fits) :
    arguments.rowText? wanted row = arguments.rowText? wanted other ↔
      arguments.triples wanted row = arguments.triples wanted other := by
  have hcells : ∀ {row : Row}, row.Fits → ∀ cell ∈ arguments.inScope wanted row, cell.Fits :=
    fun hfits cell hmem ↦ hfits cell (List.mem_filter.mp hmem).1
  by_cases hnone : arguments.triples wanted row = []
  case pos =>
    rw [rowText?_eq_none_iff.mpr hnone, hnone, eq_comm, rowText?_eq_none_iff, eq_comm]
  case neg =>
    by_cases hnone' : arguments.triples wanted other = []
    case pos =>
      rw [rowText?_eq_none_iff.mpr hnone', hnone', rowText?_eq_none_iff]
    case neg =>
      rw [rowText?_eq hnone, rowText?_eq hnone', Option.some.injEq]
      exact flatMap_cellText_inj (hcells hrow) (hcells hother)

end Arguments

end Verify

end LogShipping
