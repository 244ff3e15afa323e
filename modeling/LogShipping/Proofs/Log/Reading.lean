import LogShipping.Batch
import LogShipping.Proofs.Log.Runs

/-!
# Reading whole records

A reader in front of whole records answers them one by one, unless a limit or the system stops it. So a
batch holds the filtered entries of a stretch of the file, and its offsets are the ends of that stretch.
A pass that no limit bounds and that came to its end has read everything.
-/

namespace LogShipping

namespace Log.Reader

variable {content : Bytes} {reader : Reader} {entries : List Entry}

theorem limit_ne_none_of_exceeds {size : Nat} (h : reader.exceeds size = true) :
    reader.limit ≠ none := by
  intro hnone
  rw [exceeds, hnone] at h
  exact Bool.false_ne_true h

theorem next_of_records_nil (hcursor : reader.cursor = reader.position)
    (hrecords : Records (content.drop reader.position) []) :
    reader.next content = (.ok none, reader) := by
  unfold next
  dsimp only
  rw [hcursor, records_nil_iff.mp hrecords]
  split <;> rfl

/-- A limit hides a whole frame or leaves it whole. -/
theorem decode_ahead {payload : Bytes} {consumed : Nat}
    (h : Frame.decode (content.drop reader.position) = .complete payload consumed) :
    Frame.decode (reader.ahead content) =
      if reader.exceeds consumed then .incomplete else .complete payload consumed := by
  obtain ⟨hconsumed, hsize, hlength, -, -⟩ := Frame.decode_eq_complete_iff.mp h
  have hpositive : 0 < consumed := by
    rw [hconsumed, Frame.headerSize]
    omega
  split
  case isTrue hlimit =>
    have hshort := length_ahead_lt_of_exceeds content hpositive hlimit
    rw [Frame.decode_eq_incomplete_iff]
    by_cases hheader : reader.exceeds Frame.headerSize = true
    case pos => exact .inl (length_ahead_lt_of_exceeds content (by decide) hheader)
    case neg =>
      have hnumber : Frame.payloadLength (reader.ahead content) =
          Frame.payloadLength (content.drop reader.position) := by
        rw [← Frame.payloadLength_take _ (Nat.le_refl _), take_ahead content hheader,
          Frame.payloadLength_take _ (Nat.le_refl _)]
      rw [hnumber, ← hconsumed]
      exact .inr ⟨hsize, hshort⟩
  case isFalse hadmitted =>
    have htake := take_ahead content hadmitted
    have hwhole : ((content.drop reader.position).take consumed).length = consumed := by
      rw [List.length_take, Nat.min_eq_left hlength]
    rw [← List.take_append_drop consumed (reader.ahead content), htake,
      Frame.decode_append_iff _ (Nat.le_of_eq hwhole.symm),
      ← Frame.decode_append_iff ((content.drop reader.position).drop consumed)
        (Nat.le_of_eq hwhole.symm), List.take_append_drop]
    exact h

/-- In front of a record a reader answers it, unless a limit bounds it. -/
theorem next_of_records_cons {entry : Entry} (hcursor : reader.cursor = reader.position)
    (hrecords : Records (content.drop reader.position) (entry :: entries)) :
    (∃ after, reader.next content = (.ok none, after) ∧ after.position = reader.position ∧
      reader.limit ≠ none) ∨
    (∃ consumed, reader.next content = (.ok (some entry), reader.pass consumed) ∧
      Span content reader.position (reader.position + consumed) [entry] ∧
      Records (content.drop (reader.position + consumed)) entries) := by
  obtain ⟨payload, consumed, hframe, hentry, hrest⟩ := records_cons_iff.mp hrecords
  have hahead := decode_ahead hframe
  split at hahead
  case isTrue hlimit =>
    exact .inl ⟨_, next_of_incomplete hcursor hahead, rfl, limit_ne_none_of_exceeds hlimit⟩
  case isFalse =>
    have hnext := next_of_complete hcursor hahead
    rw [hentry] at hnext
    have hbounds := Frame.consumed_of_decode hframe
    have hstop : reader.position + consumed ≤ content.length := by
      rw [Frame.headerSize, List.length_drop] at hbounds
      omega
    refine .inr ⟨consumed, hnext, .singleton hstop (records_singleton hframe hentry), ?_⟩
    rw [← List.drop_drop]
    exact hrest

/-- The same as the system lets it be read. -/
theorem nextFrom_of_records (hcursor : reader.cursor = reader.position)
    (hrecords : Records (content.drop reader.position) entries) :
    (∃ error, reader.nextFrom (.file content) = (.error error, reader)) ∨
    (∃ after, reader.nextFrom (.file content) = (.ok none, after) ∧
      after.position = reader.position ∧ (reader.limit = none → entries = [])) ∨
    (∃ entry rest consumed, entries = entry :: rest ∧
      reader.nextFrom (.file content) = (.ok (some entry), reader.pass consumed) ∧
      Span content reader.position (reader.position + consumed) [entry] ∧
      Records (content.drop (reader.position + consumed)) rest) := by
  unfold nextFrom
  split
  case isTrue hlimit =>
    exact .inr (.inl ⟨reader, rfl, rfl, fun hnone ↦ absurd hnone (limit_ne_none_of_exceeds hlimit)⟩)
  case isFalse =>
    dsimp only
    split
    case isTrue => exact .inl ⟨_, rfl⟩
    case isFalse =>
      refine .inr ?_
      cases entries with
      | nil => exact .inl ⟨reader, next_of_records_nil hcursor hrecords, rfl, fun _ ↦ rfl⟩
      | cons entry rest =>
        rcases next_of_records_cons hcursor hrecords with
          ⟨after, hnext, hposition, hlimit⟩ | ⟨consumed, hnext, hspan, hrest⟩
        · exact .inl ⟨after, hnext, hposition, fun hnone ↦ absurd hnone hlimit⟩
        · exact .inr ⟨entry, rest, consumed, rfl, hnext, hspan, hrest⟩

end Log.Reader

namespace Batch

open Log

variable {content : Bytes} {schema : Schema} {limits : Limits} {entries : List Entry}

theorem add_entries (batch : Batch) (entry : Entry) :
    (batch.add (entry.filter schema)).entries =
      batch.entries ++ [entry].filterMap (Entry.filter schema) := by
  cases hkept : entry.filter schema with
  | none => simp [add, hkept]
  | some kept => simp [add, hkept]

theorem add_exhausted (batch : Batch) (kept : Option Entry) :
    (batch.add kept).exhausted = batch.exhausted := by
  cases kept <;> rfl

theorem add_start (batch : Batch) (kept : Option Entry) : (batch.add kept).start = batch.start := by
  cases kept <;> rfl

/-- A pass reads whole records from the reader's position on, and keeps what the filter leaves of
them. -/
theorem gather_reads (turns : Nat) {batch result : Batch} {reader after : Reader}
    (hcursor : reader.cursor = reader.position) (hlength : reader.position ≤ content.length)
    (hrecords : Records (content.drop reader.position) entries)
    (h : gather (.file content) schema limits turns batch reader = (.ok result, after)) :
    ∃ read rest, Span content reader.position after.position read ∧
      Records (content.drop after.position) rest ∧
      result.entries = batch.entries ++ read.filterMap (Entry.filter schema) ∧
      result.start = batch.start ∧
      (reader.limit = none → result.exhausted = true → batch.exhausted = true ∨ rest = []) := by
  -- A pass that ends here has read nothing more.
  have hended : ∃ read rest, Span content reader.position reader.position read ∧
      Records (content.drop reader.position) rest ∧
      batch.entries = batch.entries ++ read.filterMap (Entry.filter schema) ∧
      batch.start = batch.start ∧
      (reader.limit = none → batch.exhausted = true → batch.exhausted = true ∨ rest = []) :=
    ⟨[], entries, .nil hlength, hrecords, (List.append_nil _).symm, rfl, fun _ ↦ .inl⟩
  induction turns generalizing batch reader entries with
  | zero =>
    rw [gather] at h
    cases h
    exact hended
  | succ turns ih =>
    rw [gather] at h
    split at h
    case isTrue =>
      cases h
      exact hended
    case isFalse =>
      rcases Reader.nextFrom_of_records hcursor hrecords with
        ⟨error, hnext⟩ | ⟨stopped, hnext, hposition, hall⟩ |
        ⟨entry, rest, consumed, rfl, hnext, hspan, hrest⟩
      · rw [hnext] at h
        dsimp only at h
        split at h
        case isTrue =>
          cases h
          exact hended
        case isFalse => cases h
      · rw [hnext] at h
        cases h
        rw [hposition]
        exact ⟨[], entries, .nil hlength, hrecords, (List.append_nil _).symm, rfl,
          fun hnone _ ↦ .inr (hall hnone)⟩
      · rw [hnext] at h
        have hpassed : (reader.pass consumed).cursor = (reader.pass consumed).position := rfl
        obtain ⟨read, left, hread, hleft, hentries, hstart, hexhausted⟩ :=
          ih hpassed hspan.2.1 hrest h
            ⟨[], rest, .nil hspan.2.1, hrest, (List.append_nil _).symm, rfl, fun _ ↦ .inl⟩
        refine ⟨[entry] ++ read, left, hspan.append hread, hleft, ?_, ?_, ?_⟩
        · rw [hentries, add_entries, List.append_assoc, List.filterMap_append]
        · rw [hstart, add_start]
        · intro hnone hdone
          rw [← add_exhausted batch (entry.filter schema)]
          exact hexhausted hnone hdone

/-- A batch holds what the filter leaves of the records between its offsets. If no limit bounds the
reader and the pass came to its end, nothing comes after them. -/
theorem take_reads {batch : Batch} {reader : Reader} (hcursor : reader.cursor = reader.position)
    (hlength : reader.position ≤ content.length)
    (hrecords : Records (content.drop reader.position) entries)
    (h : (take (.file content) schema limits reader).1 = .ok batch) :
    batch.start = reader.position ∧
      ∃ read rest, Span content batch.start batch.stop read ∧
        Records (content.drop batch.stop) rest ∧
        batch.entries = read.filterMap (Entry.filter schema) ∧
        (reader.limit = none → batch.exhausted = true → rest = []) := by
  unfold take at h
  dsimp only at h
  split at h
  case h_2 => cases h
  case h_1 result after hgather =>
    obtain ⟨read, rest, hread, hrest, hentries, hstart, hexhausted⟩ :=
      gather_reads limits.count hcursor hlength hrecords hgather
    cases h
    refine ⟨hstart, read, rest, ?_, hrest, hentries, ?_⟩
    · dsimp only
      rw [hstart]
      exact hread
    · intro hnone hdone
      exact (hexhausted hnone hdone).resolve_left Bool.false_ne_true

end Batch

end LogShipping
