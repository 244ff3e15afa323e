import LogShipping.Proofs.Log.Written

/-!
# Reading and decoding

A reader compares lengths against limits before it decodes anything, reads a header and a payload apart and
puts its cursor back. What it answers is nevertheless what decoding gives: one frame after the other, and the
entry in each, over the octets from the offset to the limit or to the end of the file. The reader fails where
decoding meets what cannot be right, and its truncation mark tells that a record has begun of which more is
to be expected than there is.
-/

namespace LogShipping.Log

/-- Why decoding goes no further. -/
inductive Halt
  | incomplete
  | corrupt (fault : Frame.Fault)
  | illegible (error : Error)
  deriving Repr, DecidableEq

/-- The entries at the front of some octets, what they take, and what keeps the next one from being
decoded. -/
structure Decoding where
  entries : List Entry
  consumed : Nat
  halt : Halt
  deriving Repr, DecidableEq

/-- Behind one more record. -/
def Decoding.behind (entry : Entry) (consumed : Nat) (rest : Decoding) : Decoding :=
  ⟨entry :: rest.entries, consumed + rest.consumed, rest.halt⟩

/-- Decodes one frame after the other, and the entry in each. -/
def decoding (bytes : Bytes) : Decoding :=
  match _whole : Frame.decode bytes with
  | .incomplete => ⟨[], 0, .incomplete⟩
  | .corrupt fault => ⟨[], 0, .corrupt fault⟩
  | .complete payload consumed =>
    match Entry.decode payload with
    | .error error => ⟨[], 0, .illegible error⟩
    | .ok entry => (decoding (bytes.drop consumed)).behind entry consumed
termination_by bytes.length
decreasing_by
  have bounds := Frame.consumed_of_decode _whole
  simp only [List.length_drop, Frame.headerSize] at *
  omega

section Equations

variable {bytes : Bytes}

theorem decoding_of_incomplete (h : Frame.decode bytes = .incomplete) :
    decoding bytes = ⟨[], 0, .incomplete⟩ := by
  rw [decoding]
  split <;> simp_all

theorem decoding_of_corrupt {fault : Frame.Fault} (h : Frame.decode bytes = .corrupt fault) :
    decoding bytes = ⟨[], 0, .corrupt fault⟩ := by
  rw [decoding]
  split <;> simp_all

theorem decoding_of_illegible {payload : Bytes} {consumed : Nat} {error : Error}
    (hframe : Frame.decode bytes = .complete payload consumed)
    (hentry : Entry.decode payload = .error error) : decoding bytes = ⟨[], 0, .illegible error⟩ := by
  rw [decoding]
  split <;> simp_all

/-- Behind a record decoding goes on. -/
theorem decoding_of_record {payload : Bytes} {consumed : Nat} {entry : Entry}
    (hframe : Frame.decode bytes = .complete payload consumed)
    (hentry : Entry.decode payload = .ok entry) :
    decoding bytes = (decoding (bytes.drop consumed)).behind entry consumed := by
  rw [decoding]
  split <;> simp_all

end Equations

namespace Halt

/-- How a run of a reader ends that meets this at an offset of a file. -/
def result (path : String) (offset : Nat) : Halt → Outcome Unit
  | incomplete => .ok ()
  | corrupt fault => .error (.log (path ++ " at offset " ++ Decimal.text offset ++ ": " ++ fault.message))
  | illegible error => .error (.log (path ++ " at offset " ++ Decimal.text offset ++ ": " ++ error.message))

theorem result_eq_error_iff (path : String) (offset : Nat) (halt : Halt) :
    (∃ error, halt.result path offset = .error error) ↔ halt ≠ .incomplete := by
  cases halt with
  | incomplete => exact ⟨nofun, fun h ↦ absurd rfl h⟩
  | corrupt fault => exact ⟨fun _ ↦ nofun, fun _ ↦ ⟨_, rfl⟩⟩
  | illegible error => exact ⟨fun _ ↦ nofun, fun _ ↦ ⟨_, rfl⟩⟩

end Halt

namespace Reader

variable {content : Bytes} {reader : Reader}

theorem exceeds_eq_false_iff (reader : Reader) (size : Nat) :
    reader.exceeds size = false ↔ ∀ limit, reader.limit = some limit → reader.position + size ≤ limit := by
  unfold exceeds
  split
  case h_1 hlimit => simp [hlimit]
  case h_2 limit hlimit => simp [hlimit]

/-- The truncation mark, in terms of the limit. -/
theorem torn_iff (content : Bytes) (reader : Reader) :
    reader.torn content = true ↔
      reader.ahead content ≠ [] ∧
        (∀ limit, reader.limit = some limit → reader.position + Frame.headerSize ≤ limit) ∧
        (Frame.headerSize ≤ (reader.ahead content).length →
          ∀ limit, reader.limit = some limit →
            reader.position + (Frame.headerSize + Frame.payloadLength (reader.ahead content)) ≤ limit) := by
  rw [← exceeds_eq_false_iff, ← exceeds_eq_false_iff, torn]
  simp only [Bool.and_eq_true, Bool.or_eq_true, Bool.not_eq_true', List.isEmpty_eq_false_iff,
    decide_eq_true_eq, ← Nat.not_le, imp_iff_not_or]
  constructor
  · exact fun h ↦ ⟨h.1.2, h.1.1, h.2⟩
  · exact fun h ↦ ⟨⟨h.2.1, h.1⟩, h.2.2⟩

/-- From wherever a reader is, its run is the decoding of what lies ahead of it. The induction is that of
the decoding: an answered entry is passed by both. -/
theorem reads_decoding (content : Bytes) {reader : Reader} (hcursor : reader.cursor = reader.position) :
    ∃ after,
      Reads (next content) reader (decoding (reader.ahead content)).entries
        ((decoding (reader.ahead content)).halt.result reader.path
          (reader.position + (decoding (reader.ahead content)).consumed)) after ∧
      after.position = reader.position + (decoding (reader.ahead content)).consumed ∧
      after.truncated = (reader.truncated ||
        decide ((decoding (reader.ahead content)).halt = .incomplete) &&
          (reader.pass (decoding (reader.ahead content)).consumed).torn content) := by
  induction hahead : reader.ahead content using decoding.induct generalizing reader with
  | case1 bytes hframe =>
    subst hahead
    rw [decoding_of_incomplete hframe, pass_zero hcursor]
    exact ⟨_, .ended (next_of_incomplete hcursor hframe), rfl, by simp⟩
  | case2 bytes fault hframe =>
    subst hahead
    obtain ⟨cursor, hnext⟩ := next_of_corrupt hcursor hframe
    rw [decoding_of_corrupt hframe]
    exact ⟨_, .failed hnext, rfl, by simp⟩
  | case3 bytes payload consumed hframe error hentry =>
    subst hahead
    have hnext := next_of_complete hcursor hframe
    rw [hentry] at hnext
    rw [decoding_of_illegible hframe hentry]
    exact ⟨_, .failed hnext, rfl, by simp⟩
  | case4 bytes payload consumed hframe entry hentry ih =>
    subst hahead
    have hnext := next_of_complete hcursor hframe
    rw [hentry] at hnext
    obtain ⟨after, hread, hposition, htruncated⟩ := ih rfl (ahead_pass content reader consumed)
    rw [decoding_of_record hframe hentry, Decoding.behind, ← Nat.add_assoc, ← pass_pass]
    exact ⟨after, .entry hnext hread, hposition, htruncated⟩

end Reader

/-- A fresh reader, called up to the first none or error, answers what decoding the octets between the
offset and the limit gives. It fails if and only if decoding meets a corrupt frame or a payload that is no
entry, and names the place. Its position is behind the octets that were decoded. It marks the file as
truncated if and only if decoding stopped in front of a record that is not whole though something of it is
there, and the limit lets its header be read and, once the header is whole, all of it. The system's bound on
offsets changes none of this for a file that ends a block before it. -/
theorem reads_eq_decoding (content : Bytes) (path : String) (offset : Nat) (limit : Option Nat) :
    ∃ decoded rest result after,
      decoded = decoding ((limit.elim content content.take).drop offset) ∧
      rest = ((limit.elim content content.take).drop offset).drop decoded.consumed ∧
      Reader.Reads (Reader.next content) (Reader.start path offset limit) decoded.entries result after ∧
      (content.length + Reader.block ≤ Reader.maxOffset → offset ≤ content.length →
        Reader.Reads (Reader.nextFrom (.file content)) (Reader.start path offset limit) decoded.entries
          result after) ∧
      result = decoded.halt.result path (offset + decoded.consumed) ∧
      ((∃ error, result = .error error) ↔ decoded.halt ≠ .incomplete) ∧
      after.position = offset + decoded.consumed ∧
      (after.truncated = true ↔
        decoded.halt = .incomplete ∧ rest ≠ [] ∧
          (∀ bound, limit = some bound → after.position + Frame.headerSize ≤ bound) ∧
          (Frame.headerSize ≤ rest.length →
            ∀ bound, limit = some bound →
              after.position + (Frame.headerSize + Frame.payloadLength rest) ≤ bound)) := by
  obtain ⟨after, hread, hposition, htruncated⟩ :=
    Reader.reads_decoding content (show (Reader.start path offset limit).cursor = offset from rfl)
  refine ⟨_, _, _, after, rfl, rfl, hread, fun hfits hoffset ↦ hread.nextFrom hfits rfl hoffset, rfl,
    Halt.result_eq_error_iff _ _ _, hposition, ?_⟩
  rw [htruncated, hposition, Reader.start, Bool.false_or, Bool.and_eq_true, decide_eq_true_iff,
    Reader.torn_iff, Reader.ahead_pass]
  exact Iff.rfl

theorem reads_eq_decoding_limited :
    ∃ after,
      Reader.Reads (Reader.nextFrom (.file (written [bareEntry, putEntry])))
        (Reader.start "a.wal" 0 (some 100)) [bareEntry] (.ok ()) after ∧
      after.position = 63 ∧ ¬after.truncated = true := by
  have hdecoding : decoding (((some 100).elim (written [bareEntry, putEntry])
      (written [bareEntry, putEntry]).take).drop 0) = ⟨[bareEntry], 63, .incomplete⟩ := by
    have hframe : Frame.decode (((some 100).elim (written [bareEntry, putEntry])
        (written [bareEntry, putEntry]).take).drop 0) = .complete bareEntry.payload 63 := by decide +kernel
    rw [decoding_of_record hframe (Entry.decode_payload bareEntry),
      decoding_of_incomplete (by decide +kernel)]
    rfl
  obtain ⟨decoded, rest, result, after, hdecoded, hrest, -, hsystem, hresult, -, hposition, htruncated⟩ :=
    reads_eq_decoding (written [bareEntry, putEntry]) "a.wal" 0 (some 100)
  rw [hdecoding] at hdecoded
  subst hdecoded hresult hrest
  refine ⟨after, hsystem (by decide +kernel) (by decide +kernel), hposition, fun h ↦ ?_⟩
  have hwhole := (htruncated.mp h).2.2.2 (by decide +kernel) 100 rfl
  rw [hposition] at hwhole
  exact absurd hwhole (by decide +kernel)

end LogShipping.Log
