import Mathlib.Data.List.Basic
import LogShipping.Proofs.Verify.Texts

/-!
# The comparison row by row

The job goes through two scans in order of their keys, once, and drops the peer's rows that it has passed. If no
scan has a key twice, this comes to looking up the key of each local row that has anything to compare: the row
counts as good if the peer has a row of that key in which the same is compared. How the scans are ordered does
not matter.
-/

namespace LogShipping

namespace Bytes

/-! ## The order of keys -/

theorem order_eq_compareLex : order = List.compareLex compare := by
  funext xs ys
  induction xs generalizing ys with
  | nil => cases ys <;> rfl
  | cons x xs ih =>
    cases ys with
    | nil => rfl
    | cons y ys =>
      have hhead : compare x y = if x < y then .lt else if y < x then .gt else .eq := by
        change compareOfLessAndEq x y = _
        unfold compareOfLessAndEq
        by_cases hlt : x < y
        case pos => rw [if_pos hlt, if_pos hlt]
        case neg =>
          by_cases hgt : y < x
          case pos => rw [if_neg hlt, if_neg hlt, if_pos hgt, if_neg (UInt8.ne_of_lt hgt).symm]
          case neg =>
            have hsame := UInt8.le_antisymm (UInt8.not_lt.mp hgt) (UInt8.not_lt.mp hlt)
            rw [if_neg hlt, if_neg hlt, if_neg hgt, if_pos hsame]
      rw [order, List.compareLex_cons_cons, ih, hhead]
      split
      case isTrue => rfl
      case isFalse => split <;> rfl

instance : Std.TransCmp order := order_eq_compareLex ▸ inferInstance

instance : Std.LawfulEqCmp order := order_eq_compareLex ▸ inferInstance

theorem order_eq_iff {x y : Bytes} : order x y = .eq ↔ x = y := Std.LawfulEqCmp.compare_eq_iff_eq

end Bytes

namespace Verify

/-! ## Rows in order -/

/-- The rows are in order of their keys, and no two have the same. -/
def Ascending (rows : List Row) : Prop := rows.Pairwise fun x y ↦ Bytes.order x.key y.key = .lt

/-- No two rows have the same key. -/
def Distinct (rows : List Row) : Prop := (rows.map (·.key)).Nodup

instance (rows : List Row) : Decidable (Distinct rows) := inferInstanceAs (Decidable (List.Nodup _))

variable {rows peerRows : List Row} {row other : Row} {key later : Bytes}

theorem sort_perm (rows : List Row) : (Row.sort rows).Perm rows := List.mergeSort_perm ..

theorem order_ne_gt_iff (x y : Bytes) : (Bytes.order x y != .gt) = (Bytes.order x y).isLE := by
  cases Bytes.order x y <;> rfl

theorem ascending_sort (h : Distinct rows) : Ascending (Row.sort rows) := by
  have hsorted : (Row.sort rows).Pairwise fun x y ↦ (Bytes.order x.key y.key != .gt) = true := by
    refine List.pairwise_mergeSort (fun x y z hxy hyz ↦ ?_) (fun x y ↦ ?_) rows
    case refine_1 =>
      rw [order_ne_gt_iff] at hxy hyz ⊢
      exact Std.TransCmp.isLE_trans hxy hyz
    case refine_2 =>
      have hswap : Bytes.order y.key x.key = (Bytes.order x.key y.key).swap := Std.OrientedCmp.eq_swap
      rw [order_ne_gt_iff, order_ne_gt_iff, hswap]
      cases Bytes.order x.key y.key <;> rfl
  have hdistinct : (Row.sort rows).Pairwise fun x y ↦ x.key ≠ y.key :=
    List.pairwise_map.mp (((sort_perm rows).map _).nodup_iff.mpr h)
  refine (hsorted.and hdistinct).imp fun {x y} hxy ↦ ?_
  cases horder : Bytes.order x.key y.key with
  | lt => rfl
  | eq => exact absurd (Bytes.order_eq_iff.mp horder) hxy.2
  | gt =>
    rw [horder] at hxy
    cases hxy.1

/-- The row of a key. -/
def rowOf? (rows : List Row) (key : Bytes) : Option Row := rows.find? (·.key == key)

theorem rowOf?_eq_some_iff (h : Distinct rows) : rowOf? rows key = some row ↔ row ∈ rows ∧ row.key = key := by
  induction rows with
  | nil => simp [rowOf?]
  | cons first rows ih =>
    obtain ⟨hfirst, hrest⟩ := List.nodup_cons.mp h
    rw [rowOf?, List.find?_cons, List.mem_cons]
    split
    case h_1 hkey =>
      rw [beq_iff_eq] at hkey
      rw [Option.some.injEq]
      constructor
      · rintro rfl
        exact ⟨.inl rfl, hkey⟩
      · rintro ⟨rfl | hmem, hother⟩
        · rfl
        · exact absurd (List.mem_map.mpr ⟨row, hmem, hother.trans hkey.symm⟩) hfirst
    case h_2 hkey =>
      rw [beq_eq_false_iff_ne] at hkey
      rw [← rowOf?, ih hrest]
      constructor
      · exact fun hthere ↦ ⟨.inr hthere.1, hthere.2⟩
      · rintro ⟨rfl | hmem, hother⟩
        · exact absurd hother hkey
        · exact ⟨hmem, hother⟩

/-- It is the same in whatever order the rows are. -/
theorem rowOf?_sort (h : Distinct rows) (key : Bytes) : rowOf? (Row.sort rows) key = rowOf? rows key := by
  have hperm := sort_perm rows
  have hsorted : Distinct (Row.sort rows) := (hperm.map _).nodup_iff.mpr h
  ext row
  rw [rowOf?_eq_some_iff hsorted, rowOf?_eq_some_iff h, hperm.mem_iff]

theorem seek_suffix (key : Bytes) (rows : List Row) : (seek key rows).2 <:+ rows := by
  induction rows with
  | nil => exact List.suffix_refl _
  | cons row rows ih =>
    rw [seek]
    split
    case h_1 => exact ih.trans (List.suffix_cons row rows)
    case h_2 => exact List.suffix_cons row rows
    case h_3 => exact List.suffix_refl _

theorem ascending_seek (h : Ascending rows) (key : Bytes) : Ascending (seek key rows).2 :=
  h.sublist (seek_suffix key rows).sublist

theorem key_beq_eq_false (h : Bytes.order row.key key ≠ .eq) : (row.key == key) = false :=
  beq_eq_false_iff_ne.mpr fun hkey ↦ h (Bytes.order_eq_iff.mpr hkey)

/-- What is sought is the row of the key. -/
theorem seek_eq_rowOf? (h : Ascending rows) (key : Bytes) : (seek key rows).1 = rowOf? rows key := by
  induction rows with
  | nil => rfl
  | cons row rows ih =>
    obtain ⟨hfirst, hrest⟩ := List.pairwise_cons.mp h
    rw [seek, rowOf?, List.find?_cons]
    cases horder : Bytes.order row.key key with
    | lt =>
      rw [key_beq_eq_false (by simp [horder])]
      exact ih hrest
    | eq =>
      rw [Bytes.order_eq_iff.mp horder, beq_self_eq_true]
    | gt =>
      -- All rows from here on have later keys.
      have hbehind : ∀ other ∈ rows, ¬(other.key == key) = true := fun other hmem ↦ by
        have hlater := Std.TransCmp.lt_trans (Std.OrientedCmp.gt_iff_lt.mp horder) (hfirst other hmem)
        rw [key_beq_eq_false (by simp [Std.OrientedCmp.gt_iff_lt.mpr hlater])]
        exact Bool.false_ne_true
      rw [key_beq_eq_false (by simp [horder])]
      exact (List.find?_eq_none.mpr hbehind).symm

/-- The rows of later keys are still there. -/
theorem rowOf?_seek (hlt : Bytes.order key later = .lt) (rows : List Row) :
    rowOf? (seek key rows).2 later = rowOf? rows later := by
  induction rows with
  | nil => rfl
  | cons row rows ih =>
    rw [seek]
    cases horder : Bytes.order row.key key with
    | lt =>
      dsimp only
      rw [ih, rowOf?, rowOf?, List.find?_cons, key_beq_eq_false (by simp [Std.TransCmp.lt_trans horder hlt])]
    | eq =>
      have hkey := Bytes.order_eq_iff.mp horder
      dsimp only
      rw [rowOf?, rowOf?, List.find?_cons, key_beq_eq_false (by simp [hkey, hlt])]
    | gt => rfl

/-! ## Verdicts -/

namespace Arguments

/-- The verdicts that the job comes to, in the order of the rows. -/
def judge (arguments : Arguments) (wanted : List String) : List Row → List Row → List (Row × Bool)
  | [], _ => []
  | row :: rows, peerRows =>
    match arguments.digest? wanted row with
    | none => judge arguments wanted rows peerRows
    | some digest =>
      let (found, peerRows) := seek row.key peerRows
      (row, found.bind (arguments.digest? wanted) == some digest) :: judge arguments wanted rows peerRows

variable {arguments : Arguments} {wanted : List String}

/-- The tally is what the verdicts come to. -/
theorem join_eq_foldl_judge (tally : Tally) (rows peerRows : List Row) :
    arguments.join wanted tally rows peerRows =
      ((arguments.judge wanted rows peerRows).map (·.2)).foldl Tally.add tally := by
  induction rows generalizing tally peerRows with
  | nil => rfl
  | cons row rows ih =>
    rw [join, judge]
    cases arguments.digest? wanted row with
    | none => exact ih tally peerRows
    | some digest => exact ih _ _

/-- The verdict on a row, by looking up its key. There is none if nothing of the row is compared. -/
def verdict? (arguments : Arguments) (wanted : List String) (peerRows : List Row) (row : Row) : Option Bool :=
  (arguments.digest? wanted row).map fun digest ↦
    (rowOf? peerRows row.key).bind (arguments.digest? wanted) == some digest

/-- Each row is judged by the peer's row of its key: what was passed before belongs to earlier keys. -/
theorem judge_eq_filterMap (hrows : Ascending rows) (hpeer : Ascending peerRows) :
    arguments.judge wanted rows peerRows =
      rows.filterMap fun row ↦ (arguments.verdict? wanted peerRows row).map (row, ·) := by
  induction rows generalizing peerRows with
  | nil => rfl
  | cons row rows ih =>
    obtain ⟨hfirst, hrest⟩ := List.pairwise_cons.mp hrows
    rw [judge, List.filterMap_cons, verdict?]
    cases arguments.digest? wanted row with
    | none => exact ih hrest hpeer
    | some digest =>
      have hsame : rows.filterMap (fun row' ↦
            (arguments.verdict? wanted (seek row.key peerRows).2 row').map (row', ·)) =
          rows.filterMap fun row' ↦ (arguments.verdict? wanted peerRows row').map (row', ·) := by
        refine List.filterMap_congr fun later hmem ↦ ?_
        rw [verdict?, verdict?, rowOf?_seek (hfirst later hmem)]
      dsimp only [Option.map_some]
      rw [ih hrest (ascending_seek hpeer row.key), hsame, seek_eq_rowOf? hpeer]

end Arguments

/-! ## The tally -/

theorem foldl_add (tally : Tally) (verdicts : List Bool) :
    verdicts.foldl Tally.add tally =
      ⟨tally.good + verdicts.count true, tally.bad + verdicts.count false⟩ := by
  induction verdicts generalizing tally with
  | nil => rfl
  | cons verdict verdicts ih =>
    rw [List.foldl_cons, ih]
    cases verdict <;> simp [Tally.add, Nat.add_comm, Nat.add_left_comm]

end Verify

end LogShipping
