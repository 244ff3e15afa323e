import LogShipping.Log.Codec
import LogShipping.Log.Directory

/-!
# Stretches of whole records

Octets are whole records if decoding them finds entries only and leaves nothing over. A whole record is
told by its own octets, whatever follows them; so stretches of whole records can be joined, and a file
that such a stretch is appended to keeps the records it had.
-/

namespace LogShipping

/-! ## Whole frames -/

namespace Frame

theorem decode_eq_complete_iff {bytes payload : Bytes} {consumed : Nat} :
    decode bytes = .complete payload consumed ↔
      consumed = headerSize + payloadLength bytes ∧ payloadLength bytes ≤ maxPayload ∧
        consumed ≤ bytes.length ∧ payload = (bytes.drop headerSize).take (payloadLength bytes) ∧
        Checksum.Crc32.checksum payload = storedChecksum bytes := by
  unfold decode
  dsimp only
  constructor
  · intro h
    split at h
    case isTrue => cases h
    split at h
    case isTrue => cases h
    split at h
    case isTrue => cases h
    case isFalse hshort hsize hlength =>
      split at h
      case isFalse => cases h
      case isTrue hsum =>
        injection h with hpayload hconsumed
        subst hpayload hconsumed
        exact ⟨rfl, by omega, by omega, rfl, hsum⟩
  · rintro ⟨rfl, hsize, hlength, rfl, hsum⟩
    rw [if_neg (by omega), if_neg (by omega), if_neg (by omega), if_pos hsum]

/-! ## Frames by what they take -/

section Parts

variable {bytes : Bytes}

theorem payloadLength_take (bytes : Bytes) {size : Nat} (h : headerSize ≤ size) :
    payloadLength (bytes.take size) = payloadLength bytes := by
  rw [headerSize] at h
  rw [payloadLength, List.take_take, Nat.min_eq_left (by omega), payloadLength]

theorem storedChecksum_take {size : Nat} (h : headerSize ≤ size) :
    storedChecksum (bytes.take size) = storedChecksum bytes := by
  rw [headerSize] at h
  rw [storedChecksum, List.drop_take, List.take_take, Nat.min_eq_left (by omega), storedChecksum]

theorem decode_eq_incomplete_iff :
    decode bytes = .incomplete ↔ bytes.length < headerSize ∨
      payloadLength bytes ≤ maxPayload ∧ bytes.length < headerSize + payloadLength bytes := by
  unfold decode
  dsimp only
  split
  case isTrue h => exact ⟨fun _ ↦ .inl h, fun _ ↦ rfl⟩
  case isFalse hheader =>
    split
    case isTrue h => exact ⟨nofun, by omega⟩
    case isFalse hsize =>
      split
      case isTrue h => exact ⟨fun _ ↦ .inr ⟨Nat.not_lt.mp hsize, h⟩, fun _ ↦ rfl⟩
      case isFalse hlength =>
        refine ⟨fun h ↦ ?_, by omega⟩
        split at h <;> cases h

/-- The header tells that a frame is too large. -/
theorem decode_take_header (hlength : headerSize ≤ bytes.length)
    (hsize : maxPayload < payloadLength bytes) : decode (bytes.take headerSize) = decode bytes := by
  unfold decode
  dsimp only
  rw [payloadLength_take _ (Nat.le_refl _), List.length_take, Nat.min_eq_left hlength,
    if_neg (Nat.lt_irrefl _), if_pos hsize, if_neg (Nat.not_lt.mpr hlength), if_pos hsize]

/-- A frame is told by the octets it takes. -/
theorem decode_take_frame (hlength : headerSize ≤ bytes.length) :
    decode (bytes.take (headerSize + payloadLength bytes)) = decode bytes := by
  have hnumber := payloadLength_take bytes (Nat.le_add_right headerSize (payloadLength bytes))
  unfold decode
  dsimp only
  rw [hnumber, storedChecksum_take (Nat.le_add_right _ _), List.length_take, List.drop_take,
    Nat.add_sub_cancel_left, List.take_take, Nat.min_self, if_neg (by omega),
    if_neg (Nat.not_lt.mpr hlength)]
  by_cases hsize : maxPayload < payloadLength bytes
  case pos => rw [if_pos hsize, if_pos hsize]
  case neg =>
    rw [if_neg hsize, if_neg hsize]
    by_cases hshort : bytes.length < headerSize + payloadLength bytes
    case pos => rw [if_pos hshort, if_pos (by omega)]
    case neg => rw [if_neg hshort, if_neg (by omega)]

end Parts

/-! ## Octets that are written behind -/

section Behind

variable {bytes payload : Bytes} {consumed : Nat}

theorem payloadLength_append (h : headerSize ≤ bytes.length) (more : Bytes) :
    payloadLength (bytes ++ more) = payloadLength bytes := by
  rw [← payloadLength_take _ (Nat.le_refl _), List.take_append_of_le_length h,
    payloadLength_take _ (Nat.le_refl _)]

/-- A frame that is whole has been told. -/
theorem told_of_complete (h : decode bytes = .complete payload consumed) : decode bytes ≠ .incomplete := by
  intro hincomplete
  cases h.symm.trans hincomplete

/-- Octets that tell what a frame is tell the same with more behind them. -/
theorem decode_append (h : decode bytes ≠ .incomplete) (more : Bytes) : decode (bytes ++ more) = decode bytes := by
  rw [ne_eq, decode_eq_incomplete_iff, not_or, Nat.not_lt] at h
  obtain ⟨hheader, hwhole⟩ := h
  have hlonger : headerSize ≤ (bytes ++ more).length := by
    rw [List.length_append]
    omega
  have hnumber := payloadLength_append hheader more
  by_cases hsize : maxPayload < payloadLength bytes
  case pos =>
    calc decode (bytes ++ more)
        = decode ((bytes ++ more).take headerSize) := (decode_take_header hlonger (hnumber ▸ hsize)).symm
      _ = decode (bytes.take headerSize) := by rw [List.take_append_of_le_length hheader]
      _ = decode bytes := decode_take_header hheader hsize
  case neg =>
    have hlength : headerSize + payloadLength bytes ≤ bytes.length := by omega
    calc decode (bytes ++ more)
        = decode ((bytes ++ more).take (headerSize + payloadLength bytes)) := by
          rw [← hnumber, decode_take_frame hlonger]
      _ = decode (bytes.take (headerSize + payloadLength bytes)) := by
          rw [List.take_append_of_le_length hlength]
      _ = decode bytes := decode_take_frame hheader

/-- The same at an offset of a file. -/
theorem decode_drop_append {content : Bytes} {offset : Nat}
    (h : decode (content.drop offset) ≠ .incomplete) (more : Bytes) :
    decode ((content ++ more).drop offset) = decode (content.drop offset) := by
  have hinside : offset ≤ content.length := by
    rw [ne_eq, decode_eq_incomplete_iff, not_or, List.length_drop, headerSize] at h
    omega
  rw [List.drop_append_of_le_length hinside, decode_append h]

/-- A whole frame is told by its own octets. -/
theorem decode_append_iff (more : Bytes) (hlength : consumed ≤ bytes.length) :
    decode (bytes ++ more) = .complete payload consumed ↔ decode bytes = .complete payload consumed := by
  constructor
  · intro h
    obtain ⟨rfl, -, -, -, -⟩ := decode_eq_complete_iff.mp h
    have hheader : headerSize ≤ bytes.length := by omega
    have htold : decode bytes ≠ .incomplete := by
      rw [ne_eq, decode_eq_incomplete_iff, ← payloadLength_append hheader more]
      omega
    rw [← decode_append htold more, h]
  · intro h
    rw [decode_append (told_of_complete h), h]

end Behind

end Frame

namespace Log

/-! ## Records -/

/-- The octets are whole records, and these are the entries in them. -/
def Records (bytes : Bytes) (entries : List Entry) : Prop :=
  (decodeStretch bytes).frames.map (·.2) = entries.map .ok ∧ (decodeStretch bytes).left = 0

theorem decodeStretch_of_complete {bytes payload : Bytes} {consumed : Nat}
    (h : Frame.decode bytes = .complete payload consumed) :
    decodeStretch bytes =
      ⟨(consumed, Entry.decode payload) :: (decodeStretch (bytes.drop consumed)).frames,
        (decodeStretch (bytes.drop consumed)).ending, (decodeStretch (bytes.drop consumed)).left⟩ := by
  rw [decodeStretch]
  split
  case h_1 hother => rw [h] at hother; cases hother
  case h_2 hother => rw [h] at hother; cases hother
  case h_3 hother =>
    rw [h] at hother
    cases hother
    rfl

/-- Octets begin with a whole frame, or nothing is decoded of them. -/
theorem complete_or (bytes : Bytes) :
    (∃ payload consumed, Frame.decode bytes = .complete payload consumed) ∨
      ((decodeStretch bytes).frames = [] ∧ (decodeStretch bytes).left = bytes.length) := by
  rw [decodeStretch]
  split
  case h_1 => exact .inr ⟨rfl, rfl⟩
  case h_2 => exact .inr ⟨rfl, rfl⟩
  case h_3 payload consumed hframe => exact .inl ⟨payload, consumed, hframe⟩

theorem records_nil_iff {bytes : Bytes} : Records bytes [] ↔ bytes = [] := by
  constructor
  · rintro ⟨hframes, hleft⟩
    rcases complete_or bytes with ⟨payload, consumed, h⟩ | ⟨-, hlength⟩
    · rw [decodeStretch_of_complete h] at hframes
      cases hframes
    · rw [hlength] at hleft
      exact List.length_eq_zero_iff.mp hleft
  · rintro rfl
    rcases complete_or [] with ⟨payload, consumed, h⟩ | ⟨hframes, hleft⟩
    · have hconsumed := Frame.consumed_of_decode h
      rw [Frame.headerSize, List.length_nil] at hconsumed
      omega
    · exact ⟨by rw [hframes]; rfl, hleft⟩

theorem records_cons_iff {bytes : Bytes} {entry : Entry} {entries : List Entry} :
    Records bytes (entry :: entries) ↔
      ∃ payload consumed, Frame.decode bytes = .complete payload consumed ∧
        Entry.decode payload = .ok entry ∧ Records (bytes.drop consumed) entries := by
  constructor
  · rintro ⟨hframes, hleft⟩
    rcases complete_or bytes with ⟨payload, consumed, h⟩ | ⟨hnone, -⟩
    · rw [decodeStretch_of_complete h] at hframes hleft
      obtain ⟨hfirst, hrest⟩ := List.cons.inj hframes
      exact ⟨payload, consumed, h, hfirst, hrest, hleft⟩
    · rw [hnone] at hframes
      cases hframes
  · rintro ⟨payload, consumed, h, hfirst, hrest, hleft⟩
    unfold Records
    rw [decodeStretch_of_complete h]
    exact ⟨by rw [List.map_cons, List.map_cons, hfirst, hrest], hleft⟩

/-- Octets hold one list of records at most. -/
theorem Records.unique {bytes : Bytes} {xs ys : List Entry} (hx : Records bytes xs)
    (hy : Records bytes ys) : xs = ys :=
  (List.map_inj_right fun _ _ ↦ Except.ok.inj).mp (hx.1.symm.trans hy.1)

theorem Records.append {bytes more : Bytes} {xs ys : List Entry} (hx : Records bytes xs)
    (hy : Records more ys) : Records (bytes ++ more) (xs ++ ys) := by
  induction xs generalizing bytes with
  | nil =>
    rw [records_nil_iff.mp hx]
    exact hy
  | cons entry rest ih =>
    obtain ⟨payload, consumed, hframe, hentry, hrest⟩ := records_cons_iff.mp hx
    have hlength := (Frame.consumed_of_decode hframe).2
    refine records_cons_iff.mpr
      ⟨payload, consumed, (Frame.decode_append_iff more hlength).mpr hframe, hentry, ?_⟩
    rw [List.drop_append_of_le_length hlength]
    exact ih hrest

/-- One whole record. -/
theorem records_singleton {bytes payload : Bytes} {entry : Entry} {consumed : Nat}
    (hframe : Frame.decode bytes = .complete payload consumed)
    (hentry : Entry.decode payload = .ok entry) : Records (bytes.take consumed) [entry] := by
  have hlength := (Frame.consumed_of_decode hframe).2
  have htake : consumed ≤ (bytes.take consumed).length := by
    rw [List.length_take]
    omega
  refine records_cons_iff.mpr ⟨payload, consumed, ?_, hentry, ?_⟩
  · rw [← Frame.decode_append_iff (bytes.drop consumed) htake, List.take_append_drop]
    exact hframe
  · rw [records_nil_iff, List.drop_eq_nil_iff, List.length_take]
    omega

/-! ## Spans -/

/-- The octets from one offset to another are whole records, with these entries in them. -/
def Span (content : Bytes) (start stop : Nat) (entries : List Entry) : Prop :=
  start ≤ stop ∧ stop ≤ content.length ∧ Records ((content.take stop).drop start) entries

namespace Span

variable {content : Bytes} {start middle stop : Nat} {xs ys : List Entry}

theorem nil (h : start ≤ content.length) : Span content start start [] := by
  refine ⟨Nat.le_refl _, h, ?_⟩
  rw [records_nil_iff, List.drop_eq_nil_iff, List.length_take]
  omega

theorem append (hx : Span content start middle xs) (hy : Span content middle stop ys) :
    Span content start stop (xs ++ ys) := by
  obtain ⟨hstart, hmiddle, hxs⟩ := hx
  obtain ⟨hle, hstop, hys⟩ := hy
  refine ⟨by omega, hstop, ?_⟩
  have hsplit : (content.take stop).drop start =
      (content.take middle).drop start ++ (content.take stop).drop middle := by
    calc (content.take stop).drop start
        = ((content.take stop).take middle ++ (content.take stop).drop middle).drop start := by
          rw [List.take_append_drop]
      _ = (content.take middle).drop start ++ (content.take stop).drop middle := by
          rw [List.take_take, Nat.min_eq_left hle,
            List.drop_append_of_le_length (by rw [List.length_take]; omega)]
  rw [hsplit]
  exact hxs.append hys

theorem append_right (h : Span content start stop xs) (more : Bytes) :
    Span (content ++ more) start stop xs := by
  obtain ⟨hstart, hstop, hxs⟩ := h
  refine ⟨hstart, by rw [List.length_append]; omega, ?_⟩
  rw [List.take_append_of_le_length hstop]
  exact hxs

/-- One whole record in front of an offset. -/
theorem singleton {entry : Entry} {consumed : Nat} (hstop : start + consumed ≤ content.length)
    (h : Records ((content.drop start).take consumed) [entry]) :
    Span content start (start + consumed) [entry] := by
  refine ⟨Nat.le_add_right _ _, hstop, ?_⟩
  rw [List.drop_take, Nat.add_sub_cancel_left]
  exact h

end Span

/-! ## Files -/

/-- The octets of the file that a reference leads to. -/
def content? (directory : Directory) (file : FileRef) : Option Bytes :=
  match directory.open? file.path with
  | .ok (.file content) => some content
  | _ => none

theorem content?_eq_some_iff {directory : Directory} {file : FileRef} {content : Bytes} :
    content? directory file = some content ↔ directory.open? file.path = .ok (.file content) := by
  unfold content?
  split
  case h_1 other h => rw [h, Option.some.injEq, Except.ok.injEq, Directory.Source.file.injEq]
  case h_2 h => exact iff_of_false nofun fun hopen ↦ h content hopen

/-- A file holds these entries between two offsets. -/
def Holds (directory : Directory) (file : FileRef) (start stop : Nat) (entries : List Entry) : Prop :=
  ∃ content, content? directory file = some content ∧ Span content start stop entries

/-- A file consists of whole records from an offset on. -/
def Legible (directory : Directory) (file : FileRef) (offset : Nat) : Prop :=
  ∃ content entries, content? directory file = some content ∧ offset ≤ content.length ∧
    Records (content.drop offset) entries

/-- A file ends at an offset. -/
def EndsAt (directory : Directory) (file : FileRef) (offset : Nat) : Prop :=
  ∃ content, content? directory file = some content ∧ content.length = offset

theorem Holds.append {directory : Directory} {file : FileRef} {start middle stop : Nat}
    {xs ys : List Entry} (hx : Holds directory file start middle xs)
    (hy : Holds directory file middle stop ys) : Holds directory file start stop (xs ++ ys) := by
  obtain ⟨content, hcontent, hxs⟩ := hx
  obtain ⟨other, hother, hys⟩ := hy
  obtain rfl : content = other := Option.some.inj (hcontent.symm.trans hother)
  exact ⟨content, hcontent, hxs.append hys⟩

theorem Legible.holds_nil {directory : Directory} {file : FileRef} {offset : Nat}
    (h : Legible directory file offset) : Holds directory file offset offset [] := by
  obtain ⟨content, entries, hcontent, hoffset, -⟩ := h
  exact ⟨content, hcontent, .nil hoffset⟩

/-! ## Growing files -/

/-- Between two directories a file got some whole records more. -/
def Grows (before after : Directory) (file : FileRef) : Prop :=
  ∃ content more entries, content? before file = some content ∧
    content? after file = some (content ++ more) ∧ Records more entries

/-- Between two directories a file stayed as it was. -/
def Stays (before after : Directory) (file : FileRef) : Prop :=
  content? after file = content? before file

theorem Grows.holds {before after : Directory} {file : FileRef} {start stop : Nat}
    {entries : List Entry} (hgrows : Grows before after file)
    (h : Holds before file start stop entries) : Holds after file start stop entries := by
  obtain ⟨content, more, -, hbefore, hafter, -⟩ := hgrows
  obtain ⟨other, hother, hspan⟩ := h
  obtain rfl : content = other := Option.some.inj (hbefore.symm.trans hother)
  exact ⟨content ++ more, hafter, hspan.append_right more⟩

theorem Grows.legible {before after : Directory} {file : FileRef} {offset : Nat}
    (hgrows : Grows before after file) (h : Legible before file offset) :
    Legible after file offset := by
  obtain ⟨content, more, added, hbefore, hafter, hmore⟩ := hgrows
  obtain ⟨other, entries, hother, hoffset, hrecords⟩ := h
  obtain rfl : content = other := Option.some.inj (hbefore.symm.trans hother)
  refine ⟨content ++ more, entries ++ added, hafter, by rw [List.length_append]; omega, ?_⟩
  rw [List.drop_append_of_le_length hoffset]
  exact hrecords.append hmore

end Log

end LogShipping
