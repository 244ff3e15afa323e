import LogShipping.Log.Reader
import LogShipping.Proofs.Log.Records

/-!
# Runs of a reader

A call of a reader is decided by the frame at the front of the octets that lie ahead: those from its
position on that the limit lets be read. The lengths that a reader compares on its way, and the places
where it puts the cursor back, come down to that. A run is one call after another up to the first that
answers none or an error. The largest offset that the system admits comes in last: a file that ends a block
before it is read the same with that bound and without.
-/

namespace LogShipping

/-- The octets that a reader takes of a frame: all, or the header if that tells that the frame is too large. -/
def Frame.extent (bytes : Bytes) : Nat :=
  if maxPayload < payloadLength bytes then headerSize else headerSize + payloadLength bytes

namespace Log.Reader

variable {content : Bytes} {reader : Reader}

/-! ## What lies ahead -/

/-- The octets from the position on that the limit lets be read. -/
def ahead (content : Bytes) (reader : Reader) : Bytes :=
  (reader.limit.elim content content.take).drop reader.position

theorem length_ahead_lt_of_exceeds (content : Bytes) {size : Nat} (hsize : 0 < size) (h : reader.exceeds size = true) :
    (reader.ahead content).length < size := by
  unfold exceeds at h
  split at h
  case h_1 => cases h
  case h_2 limit hlimit =>
    rw [decide_eq_true_iff] at h
    rw [ahead, hlimit, Option.elim_some, List.length_drop, List.length_take]
    omega

theorem take_ahead (content : Bytes) {size : Nat} (h : ¬reader.exceeds size = true) :
    (reader.ahead content).take size = (content.drop reader.position).take size := by
  unfold exceeds at h
  split at h
  case h_1 hlimit => rw [ahead, hlimit, Option.elim_none]
  case h_2 limit hlimit =>
    rw [decide_eq_true_iff] at h
    rw [ahead, hlimit, Option.elim_some, List.drop_take, List.take_take, Nat.min_eq_left (by omega)]

theorem length_ahead_le (content : Bytes) (reader : Reader) :
    (reader.ahead content).length ≤ content.length - reader.position := by
  rw [ahead, List.length_drop]
  cases reader.limit with
  | none => exact Nat.le_refl _
  | some limit =>
    rw [Option.elim_some, List.length_take]
    omega

/-! ## Calls -/

/-- The reader behind one more record. -/
def pass (reader : Reader) (consumed : Nat) : Reader :=
  { reader with cursor := reader.position + consumed, position := reader.position + consumed }

/-- Octets lie ahead that end before the record does, though the limit admits what was asked for. -/
def torn (content : Bytes) (reader : Reader) : Bool :=
  !reader.exceeds Frame.headerSize && !(reader.ahead content).isEmpty &&
    (decide ((reader.ahead content).length < Frame.headerSize) ||
      !reader.exceeds (Frame.headerSize + Frame.payloadLength (reader.ahead content)))

theorem torn_of_unlimited (h : reader.limit = none) :
    reader.torn content = !(reader.ahead content).isEmpty := by
  simp [torn, exceeds, h]

/-! ### Wherever the cursor is -/

/-- The octets from the cursor on that the limit lets be read. -/
def onward (content : Bytes) (reader : Reader) : Bytes :=
  reader.limit.elim (content.drop reader.cursor) fun limit ↦
    (content.drop reader.cursor).take (limit - reader.position)

theorem onward_eq_ahead (content : Bytes) (hcursor : reader.cursor = reader.position) :
    reader.onward content = reader.ahead content := by
  rw [onward, ahead, hcursor]
  cases reader.limit with
  | none => rfl
  | some limit => rw [Option.elim_some, Option.elim_some, List.drop_take]

theorem length_onward_lt_of_exceeds (content : Bytes) {size : Nat} (hsize : 0 < size)
    (h : reader.exceeds size = true) : (reader.onward content).length < size := by
  unfold exceeds at h
  split at h
  case h_1 => cases h
  case h_2 limit hlimit =>
    rw [decide_eq_true_iff] at h
    rw [onward, hlimit, Option.elim_some, List.length_take]
    omega

theorem take_onward (content : Bytes) {size : Nat} (h : ¬reader.exceeds size = true) :
    (reader.onward content).take size = (content.drop reader.cursor).take size := by
  unfold exceeds at h
  split at h
  case h_1 hlimit => rw [onward, hlimit, Option.elim_none]
  case h_2 limit hlimit =>
    rw [decide_eq_true_iff] at h
    rw [onward, hlimit, Option.elim_some, List.take_take, Nat.min_eq_left (by omega)]

theorem next_header (hheader : Frame.headerSize ≤ (reader.onward content).length) :
    reader.next content =
      if Frame.maxPayload < Frame.payloadLength (reader.onward content) then
        reader.settle ((reader.onward content).take Frame.headerSize)
      else if reader.exceeds (Frame.headerSize + Frame.payloadLength (reader.onward content)) then
        (.ok none, reader.rewind)
      else
        reader.settle
          ((reader.onward content).take (Frame.headerSize + Frame.payloadLength (reader.onward content))) := by
  have hadmitted : ¬reader.exceeds Frame.headerSize = true := fun h ↦
    Nat.not_lt.mpr hheader (length_onward_lt_of_exceeds content (by decide) h)
  have htaken : ((reader.onward content).take Frame.headerSize).length = Frame.headerSize := by
    rw [List.length_take, Nat.min_eq_left hheader]
  have hempty : ¬((reader.onward content).take Frame.headerSize).isEmpty = true := by
    rw [List.isEmpty_iff_length_eq_zero, htaken]
    decide
  unfold next
  dsimp only
  rw [if_neg hadmitted, ← take_onward content hadmitted, if_neg hempty, htaken,
    if_neg (Nat.lt_irrefl _), Frame.payloadLength_take _ (Nat.le_refl _)]
  split
  case isTrue => rfl
  case isFalse =>
    split
    case isTrue => rfl
    case isFalse hwhole => rw [take_onward content hwhole]

/-- A whole record at the cursor moves the cursor by its size, and the position too if it is answered. -/
theorem next_complete {payload : Bytes} {consumed : Nat}
    (h : Frame.decode (reader.onward content) = .complete payload consumed) :
    reader.next content =
      match Entry.decode payload with
      | .error error =>
        (.error (reader.corrupt error.message), { reader with cursor := reader.cursor + consumed })
      | .ok entry =>
        (.ok (some entry),
          { reader with cursor := reader.cursor + consumed, position := reader.position + consumed }) := by
  obtain ⟨hconsumed, hsize, hlength, -, -⟩ := Frame.decode_eq_complete_iff.mp h
  have hheader : Frame.headerSize ≤ (reader.onward content).length := by omega
  have hadmitted : ¬reader.exceeds consumed = true := fun hlimit ↦
    Nat.not_lt.mpr hlength
      (length_onward_lt_of_exceeds content (by rw [hconsumed, Frame.headerSize]; omega) hlimit)
  have hframe : Frame.decode ((reader.onward content).take consumed) = .complete payload consumed := by
    rw [hconsumed, Frame.decode_take_frame hheader, h, hconsumed]
  have htaken : ((reader.onward content).take consumed).length = consumed := by
    rw [List.length_take, Nat.min_eq_left hlength]
  rw [next_header hheader, if_neg (Nat.not_lt.mpr hsize), ← hconsumed, if_neg hadmitted, settle, hframe]
  dsimp only
  cases Entry.decode payload with
  | error error => rw [htaken]
  | ok entry => rw [htaken]

/-- A corrupt record at the cursor moves the cursor, and the position stays. -/
theorem next_corrupt {fault : Frame.Fault} (h : Frame.decode (reader.onward content) = .corrupt fault) :
    reader.next content = (.error (reader.corrupt fault.message),
      { reader with cursor := reader.cursor + Frame.extent (reader.onward content) }) := by
  have hwhole : ¬((reader.onward content).length < Frame.headerSize ∨
      Frame.payloadLength (reader.onward content) ≤ Frame.maxPayload ∧
        (reader.onward content).length <
          Frame.headerSize + Frame.payloadLength (reader.onward content)) := fun hshort ↦ by
    rw [Frame.decode_eq_incomplete_iff.mpr hshort] at h
    cases h
  have hheader : Frame.headerSize ≤ (reader.onward content).length := by omega
  rw [next_header hheader, Frame.extent]
  by_cases hsize : Frame.maxPayload < Frame.payloadLength (reader.onward content)
  case pos =>
    rw [if_pos hsize, if_pos hsize, settle, Frame.decode_take_header hheader hsize, h, List.length_take,
      Nat.min_eq_left hheader]
  case neg =>
    have hlength : Frame.headerSize + Frame.payloadLength (reader.onward content) ≤
        (reader.onward content).length := by omega
    have hadmitted : ¬reader.exceeds (Frame.headerSize + Frame.payloadLength (reader.onward content)) = true :=
      fun hlimit ↦ Nat.not_lt.mpr hlength
        (length_onward_lt_of_exceeds content (Nat.add_pos_left (by decide) _) hlimit)
    rw [if_neg hsize, if_neg hadmitted, if_neg hsize, settle, Frame.decode_take_frame hheader, h,
      List.length_take, Nat.min_eq_left hlength]

/-- In front of what is no whole record the cursor stays, or goes back to the position. -/
theorem next_incomplete (h : Frame.decode (reader.onward content) = .incomplete) :
    ∃ after, reader.next content = (.ok none, after) ∧
      (after = reader ∨ after = reader.rewind ∨ after = reader.tear) := by
  by_cases hheader : Frame.headerSize ≤ (reader.onward content).length
  case pos =>
    obtain ⟨hsize, -⟩ := (Frame.decode_eq_incomplete_iff.mp h).resolve_left (Nat.not_lt.mpr hheader)
    rw [next_header hheader, if_neg (Nat.not_lt.mpr hsize)]
    split
    case isTrue => exact ⟨_, rfl, .inr (.inl rfl)⟩
    case isFalse =>
      rw [settle, Frame.decode_take_frame hheader, h]
      exact ⟨_, rfl, .inr (.inr rfl)⟩
  case neg =>
    have hshort := Nat.not_le.mp hheader
    unfold next
    split
    case isTrue => exact ⟨_, rfl, .inl rfl⟩
    case isFalse hadmitted =>
      have hfront : (content.drop reader.cursor).take Frame.headerSize = reader.onward content := by
        rw [← take_onward content hadmitted, List.take_of_length_le (Nat.le_of_lt hshort)]
      dsimp only
      rw [hfront, if_pos hshort]
      split
      case isTrue => exact ⟨_, rfl, .inl rfl⟩
      case isFalse => exact ⟨_, rfl, .inr (.inr rfl)⟩

/-! ### With the cursor at the position -/

section Calls

variable (hcursor : reader.cursor = reader.position)

include hcursor

theorem rewind_eq : reader.rewind = reader := by
  cases reader
  cases hcursor
  rfl

theorem next_of_header (hheader : Frame.headerSize ≤ (reader.ahead content).length) :
    reader.next content =
      if Frame.maxPayload < Frame.payloadLength (reader.ahead content) then
        reader.settle ((reader.ahead content).take Frame.headerSize)
      else if reader.exceeds (Frame.headerSize + Frame.payloadLength (reader.ahead content)) then
        (.ok none, reader)
      else
        reader.settle
          ((reader.ahead content).take (Frame.headerSize + Frame.payloadLength (reader.ahead content))) := by
  rw [← onward_eq_ahead content hcursor] at hheader ⊢
  rw [next_header hheader, rewind_eq hcursor]

/-- A whole record is answered, if its payload is an entry. -/
theorem next_of_complete {payload : Bytes} {consumed : Nat}
    (h : Frame.decode (reader.ahead content) = .complete payload consumed) :
    reader.next content =
      match Entry.decode payload with
      | .error error =>
        (.error (reader.corrupt error.message), { reader with cursor := reader.position + consumed })
      | .ok entry => (.ok (some entry), reader.pass consumed) := by
  rw [← onward_eq_ahead content hcursor] at h
  rw [next_complete h, hcursor]
  rfl

/-- A corrupt record is an error at its offset, and stays where it is. -/
theorem next_of_corrupt {fault : Frame.Fault} (h : Frame.decode (reader.ahead content) = .corrupt fault) :
    ∃ cursor, reader.next content =
      (.error (reader.corrupt fault.message), { reader with cursor := cursor }) := by
  rw [← onward_eq_ahead content hcursor] at h
  exact ⟨_, next_corrupt h⟩

/-- In front of what is no whole record a reader answers none and stays where it is. -/
theorem next_of_incomplete (h : Frame.decode (reader.ahead content) = .incomplete) :
    reader.next content =
      (.ok none, { reader with truncated := reader.truncated || reader.torn content }) := by
  have hsame (htorn : reader.torn content = false) :
      { reader with truncated := reader.truncated || reader.torn content } = reader := by
    rw [htorn, Bool.or_false]
  have htear (htorn : reader.torn content = true) :
      { reader with truncated := reader.truncated || reader.torn content } = reader.tear := by
    rw [htorn, Bool.or_true, tear, rewind_eq hcursor]
  by_cases hheader : Frame.headerSize ≤ (reader.ahead content).length
  case pos =>
    obtain ⟨hsize, -⟩ := (Frame.decode_eq_incomplete_iff.mp h).resolve_left (Nat.not_lt.mpr hheader)
    rw [next_of_header hcursor hheader, if_neg (Nat.not_lt.mpr hsize)]
    split
    case isTrue hlimit => rw [hsame (by simp [torn, hlimit, hheader])]
    case isFalse hlimit =>
      have hadmitted : ¬reader.exceeds Frame.headerSize = true := fun hlimit ↦
        Nat.not_lt.mpr hheader (length_ahead_lt_of_exceeds content (by decide) hlimit)
      have hsome : reader.ahead content ≠ [] := by
        rintro hnil
        rw [hnil] at hheader
        cases hheader
      rw [htear (by simp [torn, hlimit, hadmitted, hsome]), settle, Frame.decode_take_frame hheader, h]
  case neg =>
    have hshort := Nat.not_le.mp hheader
    unfold next
    split
    case isTrue hlimit => rw [hsame (by simp [torn, hlimit])]
    case isFalse hadmitted =>
      have hfront : (content.drop reader.cursor).take Frame.headerSize = reader.ahead content := by
        rw [hcursor, ← take_ahead content hadmitted, List.take_of_length_le (Nat.le_of_lt hshort)]
      dsimp only
      rw [hfront, if_pos hshort]
      split
      case isTrue hempty => rw [hsame (by simp [torn, hempty])]
      case isFalse hsome => rw [htear (by simp [torn, hadmitted, hsome, hshort])]

/-- Behind an answered entry the cursor and the position agree, within what lay ahead. -/
theorem of_next_eq_some {entry : Entry} {after : Reader}
    (h : reader.next content = (.ok (some entry), after)) :
    ∃ consumed, after = reader.pass consumed ∧ consumed ≤ (reader.ahead content).length := by
  cases hframe : Frame.decode (reader.ahead content) with
  | incomplete =>
    rw [next_of_incomplete hcursor hframe] at h
    cases h
  | corrupt fault =>
    obtain ⟨cursor, hnext⟩ := next_of_corrupt hcursor hframe
    rw [hnext] at h
    cases h
  | complete payload consumed =>
    rw [next_of_complete hcursor hframe] at h
    split at h
    case h_1 => cases h
    case h_2 =>
      cases h
      exact ⟨consumed, rfl, (Frame.consumed_of_decode hframe).2⟩

end Calls

/-! ## Runs -/

/-- Called again and again up to the first call that answers none or an error, the reader answers these
entries, ends so, and is left as that call leaves it. -/
inductive Reads (next : Reader → Outcome (Option Entry) × Reader) :
    Reader → List Entry → Outcome Unit → Reader → Prop
  | ended {reader after : Reader} (h : next reader = (.ok none, after)) :
      Reads next reader [] (.ok ()) after
  | failed {reader after : Reader} {error : Error} (h : next reader = (.error error, after)) :
      Reads next reader [] (.error error) after
  | entry {reader middle after : Reader} {entry : Entry} {entries : List Entry} {result : Outcome Unit}
      (h : next reader = (.ok (some entry), middle)) (rest : Reads next middle entries result after) :
      Reads next reader (entry :: entries) result after

namespace Reads

variable {next : Reader → Outcome (Option Entry) × Reader} {after : Reader} {entries : List Entry}
  {result : Outcome Unit}

/-- A reader answers one list of entries and ends in one way. -/
theorem unique {others : List Entry} {ending : Outcome Unit} {last : Reader}
    (h : Reads next reader entries result after) (h' : Reads next reader others ending last) :
    entries = others ∧ result = ending ∧ after = last := by
  induction h generalizing others with
  | ended hnext =>
    cases h' with
    | ended hnext' => cases hnext.symm.trans hnext'; exact ⟨rfl, rfl, rfl⟩
    | failed hnext' => cases hnext.symm.trans hnext'
    | entry hnext' => cases hnext.symm.trans hnext'
  | failed hnext =>
    cases h' with
    | ended hnext' => cases hnext.symm.trans hnext'
    | failed hnext' => cases hnext.symm.trans hnext'; exact ⟨rfl, rfl, rfl⟩
    | entry hnext' => cases hnext.symm.trans hnext'
  | entry hnext _ ih =>
    cases h' with
    | ended hnext' => cases hnext.symm.trans hnext'
    | failed hnext' => cases hnext.symm.trans hnext'
    | entry hnext' rest =>
      cases hnext.symm.trans hnext'
      obtain ⟨rfl, rfl, rfl⟩ := ih rest
      exact ⟨rfl, rfl, rfl⟩

end Reads

/-- As long as its block ends within the largest offset, the system answers what the file holds. -/
theorem nextFrom_file (h : reader.cursor + block ≤ maxOffset) :
    reader.nextFrom (.file content) = reader.next content := by
  unfold nextFrom
  split
  case isTrue hlimit =>
    unfold next
    rw [if_pos hlimit]
  case isFalse => exact if_neg (Nat.not_lt.mpr h)

/-- Of a file that ends a block before the largest offset, the system lets everything be read. -/
theorem Reads.nextFrom {after : Reader} {entries : List Entry} {result : Outcome Unit}
    (hfits : content.length + block ≤ maxOffset) (hcursor : reader.cursor = reader.position)
    (hposition : reader.position ≤ content.length) (h : Reads (next content) reader entries result after) :
    Reads (Reader.nextFrom (.file content)) reader entries result after := by
  induction h with
  | ended hnext => exact .ended (by rw [nextFrom_file (by omega), hnext])
  | failed hnext => exact .failed (by rw [nextFrom_file (by omega), hnext])
  | @entry reader _ _ _ _ _ hnext _ ih =>
    refine .entry (by rw [nextFrom_file (by omega), hnext]) ?_
    obtain ⟨consumed, rfl, hconsumed⟩ := of_next_eq_some hcursor hnext
    have hlength := length_ahead_le content reader
    have hinside : reader.position + consumed ≤ content.length := by omega
    exact ih rfl hinside

end Log.Reader

end LogShipping
