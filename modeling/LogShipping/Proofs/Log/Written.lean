import LogShipping.Proofs.Log.Entries
import LogShipping.Proofs.Log.Frames
import LogShipping.Proofs.Log.Runs

/-!
# Reading what was written

The octets that are written for entries are their frames, one after the other. Wherever a file of them is
cut, a reader without a limit answers the entries whose frames are whole, and tells a cut within a frame
from one between two. If one octet behind the length of a frame is damaged, it answers the entries in
front of that frame and fails there.
-/

namespace LogShipping.Log

/-- The octets that are written for the entries. -/
def written (entries : List Entry) : Bytes := entries.flatMap Entry.encode

/-- Where the first `count` of the entries end. -/
def stop (entries : List Entry) (count : Nat) : Nat := (written (entries.take count)).length

theorem written_nil : written [] = [] := rfl

theorem written_singleton (entry : Entry) : written [entry] = entry.encode := List.append_nil _

theorem written_cons (entry : Entry) (entries : List Entry) :
    written (entry :: entries) = entry.encode ++ written entries := rfl

theorem written_append (xs ys : List Entry) : written (xs ++ ys) = written xs ++ written ys :=
  List.flatMap_append

theorem stop_zero (entries : List Entry) : stop entries 0 = 0 := rfl

theorem stop_cons_succ (entry : Entry) (entries : List Entry) (count : Nat) :
    stop (entry :: entries) (count + 1) = entry.encode.length + stop entries count := by
  rw [stop, List.take_succ_cons, written_cons, List.length_append, stop]

theorem length_encode_pos (entry : Entry) : 0 < entry.encode.length := by
  rw [Entry.encode, Frame.length_encode, Frame.headerSize]
  omega

namespace Reader

variable {content : Bytes} {reader : Reader} {entries : List Entry}

theorem ahead_pass (content : Bytes) (reader : Reader) (consumed : Nat) :
    (reader.pass consumed).ahead content = (reader.ahead content).drop consumed := by
  rw [ahead, ahead, List.drop_drop]
  rfl

theorem pass_pass (reader : Reader) (x y : Nat) : (reader.pass x).pass y = reader.pass (x + y) := by
  simp only [pass, Nat.add_assoc]

theorem pass_zero (hcursor : reader.cursor = reader.position) : reader.pass 0 = reader := by
  cases reader
  cases hcursor
  rfl

theorem ahead_start (content : Bytes) (path : String) : (start path 0 none).ahead content = content := rfl

/-- A written record ahead is answered. -/
theorem next_of_written {entry : Entry} {more : Bytes} (hcursor : reader.cursor = reader.position)
    (hsize : entry.payload.length ≤ Frame.maxPayload)
    (hahead : reader.ahead content = entry.encode ++ more) :
    reader.next content = (.ok (some entry), reader.pass entry.encode.length) := by
  have hframe := Frame.decode_encode_append hsize more
  rw [← Entry.encode, ← hahead] at hframe
  rw [next_of_complete hcursor hframe, entry.decode_payload]

/-- Written records ahead are answered, and the run ends as it does behind them. -/
theorem Reads.of_written {result : Outcome Unit} {after : Reader} {more : Bytes} (hcursor : reader.cursor = reader.position)
    (hsize : ∀ entry ∈ entries, entry.payload.length ≤ Frame.maxPayload)
    (hahead : reader.ahead content = written entries ++ more)
    (hrest : Reads (next content) (reader.pass (written entries).length) [] result after) :
    Reads (next content) reader entries result after := by
  induction entries generalizing reader with
  | nil =>
    rw [written, List.flatMap_nil, List.length_nil, pass_zero hcursor] at hrest
    exact hrest
  | cons entry entries ih =>
    rw [written_cons, List.append_assoc] at hahead
    refine .entry (next_of_written hcursor (hsize entry List.mem_cons_self) hahead) ?_
    refine ih rfl (fun other hmem ↦ hsize other (List.mem_cons_of_mem _ hmem)) ?_ ?_
    · rw [ahead_pass, hahead, List.drop_left]
    · rw [pass_pass, ← List.length_append, ← written_cons]
      exact hrest

end Reader

/-- An entry without cells. -/
def bareEntry : Entry := ⟨"t", 1, 0, []⟩

/-- An entry of one cell, with a name outside of ASCII. -/
def putEntry : Entry := ⟨"é", 2, -1, [⟨[0x72], "f", [0x71], 5, .put, [0xFF]⟩]⟩

/-! ## Cut files -/

/-- A cut leaves `count` whole records in front of it, and behind them a part of a frame, which is empty if
the cut is between two frames. -/
structure CutAt (entries : List Entry) (cut count : Nat) (front : Bytes) : Prop where
  within : count ≤ entries.length
  whole : ∀ n ≤ entries.length, n ≤ count ↔ stop entries n ≤ cut
  octets : (written entries).take cut = written (entries.take count) ++ front
  incomplete : Frame.decode front = .incomplete
  between : front = [] ↔ ∃ n ≤ entries.length, stop entries n = cut

namespace CutAt

variable {entry : Entry} {entries : List Entry} {cut count : Nat} {front : Bytes}

theorem nil : CutAt [] 0 0 [] where
  within := Nat.le_refl 0
  whole n hn := by
    rw [Nat.le_zero.mp hn]
    exact Iff.rfl
  octets := rfl
  incomplete := rfl
  between := ⟨fun _ ↦ ⟨0, Nat.le_refl 0, rfl⟩, fun _ ↦ rfl⟩

/-- A cut within the first frame leaves the octets in front of it. -/
theorem inside (hsize : entry.payload.length ≤ Frame.maxPayload) (hcut : cut < entry.encode.length) :
    CutAt (entry :: entries) cut 0 (entry.encode.take cut) where
  within := Nat.zero_le _
  whole n hn := by
    cases n with
    | zero => exact ⟨fun _ ↦ Nat.zero_le _, fun _ ↦ Nat.le_refl _⟩
    | succ n =>
      rw [stop_cons_succ]
      omega
  octets := by
    rw [written_cons, List.take_append_of_le_length (Nat.le_of_lt hcut)]
    rfl
  incomplete := Frame.decode_take_encode hsize hcut
  between := by
    rw [← List.length_eq_zero_iff, List.length_take, Nat.min_eq_left (Nat.le_of_lt hcut)]
    constructor
    · rintro rfl
      exact ⟨0, Nat.zero_le _, rfl⟩
    · rintro ⟨n, hn, hstop⟩
      cases n with
      | zero => exact hstop.symm
      | succ n =>
        rw [stop_cons_succ] at hstop
        omega

/-- A cut behind the first frame is one of the records behind it. -/
theorem behind (h : CutAt entries cut count front) (entry : Entry) :
    CutAt (entry :: entries) (entry.encode.length + cut) (count + 1) front where
  within := Nat.succ_le_succ h.within
  whole n hn := by
    cases n with
    | zero => exact ⟨fun _ ↦ Nat.zero_le _, fun _ ↦ Nat.zero_le _⟩
    | succ n =>
      rw [stop_cons_succ, Nat.add_le_add_iff_right, Nat.add_le_add_iff_left]
      exact h.whole n (Nat.le_of_succ_le_succ hn)
  octets := by
    rw [List.take_succ_cons, written_cons, written_cons, List.append_assoc, ← h.octets,
      List.take_length_add_append]
  incomplete := h.incomplete
  between := by
    rw [h.between]
    constructor
    · rintro ⟨n, hn, rfl⟩
      exact ⟨n + 1, Nat.succ_le_succ hn, stop_cons_succ entry entries n⟩
    · rintro ⟨n, hn, hstop⟩
      cases n with
      | zero =>
        have hpositive := length_encode_pos entry
        rw [stop_zero] at hstop
        omega
      | succ n =>
        rw [stop_cons_succ] at hstop
        exact ⟨n, Nat.le_of_succ_le_succ hn, Nat.add_left_cancel hstop⟩

end CutAt

/-- By induction over the entries: the cut is within the first frame or behind it. -/
theorem exists_cutAt {entries : List Entry}
    (hsize : ∀ entry ∈ entries, entry.payload.length ≤ Frame.maxPayload) {cut : Nat}
    (hcut : cut ≤ (written entries).length) : ∃ count front, CutAt entries cut count front := by
  induction entries generalizing cut with
  | nil =>
    obtain rfl : cut = 0 := Nat.le_zero.mp hcut
    exact ⟨0, [], .nil⟩
  | cons entry entries ih =>
    by_cases hwhole : entry.encode.length ≤ cut
    case pos =>
      obtain ⟨cut, rfl⟩ := Nat.exists_eq_add_of_le hwhole
      rw [written_cons, List.length_append, Nat.add_le_add_iff_left] at hcut
      obtain ⟨count, front, h⟩ := ih (fun other hmem ↦ hsize other (List.mem_cons_of_mem _ hmem)) hcut
      exact ⟨count + 1, front, h.behind entry⟩
    case neg => exact ⟨0, _, .inside (hsize entry List.mem_cons_self) (Nat.not_le.mp hwhole)⟩

/-- A cut file reads as its whole records, and the reader tells whether there is a part of one behind
them. -/
theorem reads_cut (path : String) {entries : List Entry}
    (hsize : ∀ entry ∈ entries, entry.payload.length ≤ Frame.maxPayload) {cut : Nat}
    (hcut : cut ≤ (written entries).length) :
    ∃ count after, count ≤ entries.length ∧
      (∀ n ≤ entries.length, n ≤ count ↔ stop entries n ≤ cut) ∧
      Reader.Reads (Reader.next ((written entries).take cut)) (Reader.start path 0 none)
        (entries.take count) (.ok ()) after ∧
      after.position = stop entries count ∧
      (after.truncated = true ↔ ¬∃ n ≤ entries.length, stop entries n = cut) := by
  obtain ⟨count, front, hwithin, hwhole, htake, hfront, hbetween⟩ := exists_cutAt hsize hcut
  have hahead : ((Reader.start path 0 none).pass (stop entries count)).ahead ((written entries).take cut) =
      front := by
    rw [Reader.ahead_pass, Reader.ahead_start, htake, stop, List.drop_left]
  have htorn : ((Reader.start path 0 none).pass (stop entries count)).torn ((written entries).take cut) =
      true ↔ ¬front = [] := by
    rw [Reader.torn_of_unlimited rfl, hahead, Bool.not_eq_true', List.isEmpty_eq_false_iff]
  rw [← hahead] at hfront
  have hlast := Reader.next_of_incomplete rfl hfront
  have hread := Reader.Reads.of_written rfl (fun entry hmem ↦ hsize entry (List.mem_of_mem_take hmem))
    ((Reader.ahead_start _ path).trans htake) (.ended hlast)
  exact ⟨count, _, hwithin, hwhole, hread, Nat.zero_add _, htorn.trans (not_congr hbetween)⟩

theorem reads_cut_in_second_header :
    ∃ after,
      Reader.Reads (Reader.next ((written [bareEntry, putEntry]).take 66)) (Reader.start "a.wal" 0 none)
        [bareEntry] (.ok ()) after ∧
      after.position = 63 ∧ after.truncated = true := by
  obtain ⟨count, after, hwithin, hcount, hread, hposition, htorn⟩ := reads_cut "a.wal"
    (show ∀ entry ∈ [bareEntry, putEntry], entry.payload.length ≤ Frame.maxPayload by decide +kernel)
    (show 66 ≤ (written [bareEntry, putEntry]).length by decide +kernel)
  have hfirst : 1 ≤ count := (hcount 1 (by decide)).mpr (by decide +kernel)
  have hsecond : ¬2 ≤ count := fun h ↦ absurd ((hcount 2 (by decide)).mp h) (by decide +kernel)
  obtain rfl : count = 1 := by omega
  have hbetween : ¬∃ n ≤ 2, stop [bareEntry, putEntry] n = 66 := by decide +kernel
  exact ⟨after, hread, hposition.trans (by decide +kernel), htorn.mpr hbetween⟩

/-! ## Damaged files -/

/-- A damaged record is an error at its offset: nothing in front of it is lost, and it is neither passed
over nor taken for another one. -/
theorem reads_damaged (path : String) (before : List Entry) (entry : Entry) (behind : List Entry)
    (hsize : ∀ other ∈ before ++ entry :: behind, other.payload.length ≤ Frame.maxPayload)
    {index : Nat} (hlow : 4 ≤ index) (hindex : index < entry.encode.length) {mask : UInt8}
    (hmask : mask ≠ 0) :
    ∃ fault after,
      Reader.Reads
        (Reader.next ((written (before ++ entry :: behind)).flip ((written before).length + index) mask))
        (Reader.start path 0 none) before
        (.error (.log (path ++ " at offset " ++ Decimal.text (written before).length ++ ": " ++
          Frame.Fault.message fault))) after ∧
      after.position = (written before).length ∧ after.truncated = false := by
  obtain ⟨fault, hfault⟩ := Frame.decode_flip_encode (hsize entry (by simp)) hlow hindex hmask (written behind)
  have hcontent : (written (before ++ entry :: behind)).flip ((written before).length + index) mask =
      written before ++ (entry.encode.flip index mask ++ written behind) := by
    rw [written_append, written_cons, Bytes.flip_append_right rfl, Bytes.flip_append_left hindex]
  have hposition : ((Reader.start path 0 none).pass (written before).length).position =
      (written before).length := Nat.zero_add _
  have hahead : ((Reader.start path 0 none).pass (written before).length).ahead
      (written before ++ (entry.encode.flip index mask ++ written behind)) =
      entry.encode.flip index mask ++ written behind := by
    rw [Reader.ahead_pass, Reader.ahead_start, List.drop_left]
  rw [← Entry.encode, ← hahead] at hfault
  obtain ⟨cursor, hlast⟩ := Reader.next_of_corrupt rfl hfault
  rw [Reader.corrupt, hposition, ← hcontent] at hlast
  have hread := Reader.Reads.of_written rfl (fun other hmem ↦ hsize other (List.mem_append_left _ hmem))
    ((Reader.ahead_start _ path).trans hcontent) (.failed hlast)
  exact ⟨fault, _, hread, rfl, rfl⟩

theorem reads_damaged_checksum :
    ∃ fault after,
      Reader.Reads (Reader.next ((written [bareEntry, putEntry, bareEntry]).flip (63 + 4) 1))
        (Reader.start "a.wal" 0 none) [bareEntry]
        (.error (.log ("a.wal" ++ " at offset " ++ Decimal.text 63 ++ ": " ++ Frame.Fault.message fault)))
        after ∧
      after.position = 63 ∧ after.truncated = false := by
  have hlength : (written [bareEntry]).length = 63 := by decide +kernel
  rw [← hlength]
  exact reads_damaged "a.wal" [bareEntry] putEntry [bareEntry] (by decide +kernel) (by decide)
    (by decide +kernel) (by decide)

end LogShipping.Log
