import LogShipping.Proofs.Batch.Passes

/-!
# Damaged lengths

The checksum of a record covers its payload only, so a damaged length is told by where it leads. Three things
may be there. If the file ends before the record would, as if its writer had not come to the end of it, reading
ends. If the octets up to there happen to have the checksum that is stored, and to be an entry, they are read as
one. Anything else is an error at the record's offset.
-/

namespace LogShipping

namespace Frame

section Flip

variable {bytes : Bytes} {index : Nat} {mask : UInt8}

/-- A damaged octet of the length leaves what is behind the length as it is. -/
theorem flip_eq_append (hindex : index < 4) (hlength : 4 ≤ bytes.length) :
    bytes.flip index mask = Bytes.flip (bytes.take 4) index mask ++ bytes.drop 4 := by
  have htake : index < (bytes.take 4).length := by
    rw [List.length_take]
    omega
  rw [← Bytes.flip_append_left htake, List.take_append_drop]

theorem length_flip_take (hlength : 4 ≤ bytes.length) : (Bytes.flip (bytes.take 4) index mask).length = 4 := by
  rw [Bytes.length_flip, List.length_take, Nat.min_eq_left hlength]

/-- It gives another length. -/
theorem payloadLength_flip_ne (hindex : index < 4) (hlength : 4 ≤ bytes.length) (hmask : mask ≠ 0) :
    payloadLength (bytes.flip index mask) ≠ payloadLength bytes := by
  rw [flip_eq_append hindex hlength, payloadLength_parts (length_flip_take hlength), payloadLength]
  intro h
  have htake : index < (bytes.take 4).length := by
    rw [List.length_take]
    omega
  exact Bytes.flip_ne htake hmask (Bytes.ofLittleEndian_inj (Bytes.length_flip ..) h)

theorem drop_flip (hindex : index < 4) (hlength : 4 ≤ bytes.length) (size : Nat) :
    (bytes.flip index mask).drop (4 + size) = bytes.drop (4 + size) := by
  rw [flip_eq_append hindex hlength, ← List.drop_drop, List.drop_left' (length_flip_take hlength),
    List.drop_drop]

theorem storedChecksum_flip (hindex : index < 4) (hlength : 4 ≤ bytes.length) :
    storedChecksum (bytes.flip index mask) = storedChecksum bytes := by
  rw [storedChecksum, drop_flip hindex hlength 0, storedChecksum]

end Flip

end Frame

namespace Log

/-! ## Where a length leads -/

/-- A record of such a length would not be too large, and would end behind the end of the file. -/
def Overruns (content : Bytes) (start length : Nat) : Prop :=
  length ≤ Frame.maxPayload ∧ content.length < start + Frame.headerSize + length

/-- The octets up to where a record of such a length would end happen to have the checksum that is stored for
the record, and to be an entry. -/
structure Misread (content : Bytes) (start length : Nat) (entry : Entry) : Prop where
  size : length ≤ Frame.maxPayload
  inside : start + Frame.headerSize + length ≤ content.length
  checksum : Checksum.Crc32.checksum ((content.drop (start + Frame.headerSize)).take length) =
    Frame.storedChecksum (content.drop start)
  decode : Entry.decode ((content.drop (start + Frame.headerSize)).take length) = .ok entry

/-- Neither is the case. -/
def Detected (content : Bytes) (start length : Nat) : Prop :=
  ¬Overruns content start length ∧ ∀ entry, ¬Misread content start length entry

instance (content : Bytes) (start length : Nat) : Decidable (Overruns content start length) :=
  inferInstanceAs (Decidable (_ ∧ _))

section Damage

variable {content : Bytes} {start index : Nat} {mask : UInt8}

theorem drop_flip (hstart : start ≤ content.length) (index : Nat) (mask : UInt8) :
    (content.flip (start + index) mask).drop start = Bytes.flip (content.drop start) index mask := by
  have htake : (content.take start).length = start := by rw [List.length_take, Nat.min_eq_left hstart]
  calc (content.flip (start + index) mask).drop start
      = (Bytes.flip (content.take start ++ content.drop start) (start + index) mask).drop start := by
        rw [List.take_append_drop]
    _ = (content.take start ++ Bytes.flip (content.drop start) index mask).drop start := by
        rw [Bytes.flip_append_right htake]
    _ = Bytes.flip (content.drop start) index mask := List.drop_left' htake

theorem take_flip (hstart : start ≤ content.length) (index : Nat) (mask : UInt8) :
    (content.flip (start + index) mask).take start = content.take start := by
  have htake : (content.take start).length = start := by rw [List.length_take, Nat.min_eq_left hstart]
  calc (content.flip (start + index) mask).take start
      = (Bytes.flip (content.take start ++ content.drop start) (start + index) mask).take start := by
        rw [List.take_append_drop]
    _ = (content.take start ++ Bytes.flip (content.drop start) index mask).take start := by
        rw [Bytes.flip_append_right htake]
    _ = content.take start := List.take_left' htake

variable (hheader : Frame.headerSize ≤ (content.drop start).length)

include hheader

theorem start_le_of_header : start ≤ content.length := by
  rw [List.length_drop, Frame.headerSize] at hheader
  omega

/-- The damaged length leads behind the end of the file if and only if the frame is incomplete. -/
theorem decode_flip_eq_incomplete_iff :
    Frame.decode ((content.flip (start + index) mask).drop start) = .incomplete ↔
      Overruns content start (Frame.payloadLength ((content.flip (start + index) mask).drop start)) := by
  have hstart := start_le_of_header hheader
  rw [Frame.decode_eq_incomplete_iff, List.length_drop, Bytes.length_flip, Overruns]
  rw [List.length_drop] at hheader
  omega

/-- The damaged record is read as an entry if and only if it is misread. -/
theorem decode_flip_eq_complete_iff (hindex : index < 4) {entry : Entry} :
    (∃ payload consumed,
      Frame.decode ((content.flip (start + index) mask).drop start) = .complete payload consumed ∧
        Entry.decode payload = .ok entry) ↔
      Misread content start (Frame.payloadLength ((content.flip (start + index) mask).drop start)) entry := by
  have hstart := start_le_of_header hheader
  have hfour : 4 ≤ (content.drop start).length := by
    rw [Frame.headerSize] at hheader
    omega
  have hsize : ((content.flip (start + index) mask).drop start).length = content.length - start := by
    rw [List.length_drop, Bytes.length_flip]
  generalize hlength : Frame.payloadLength ((content.flip (start + index) mask).drop start) = length
  have hbehind : ((content.flip (start + index) mask).drop start).drop Frame.headerSize =
      content.drop (start + Frame.headerSize) := by
    rw [drop_flip hstart, ← List.drop_drop]
    exact Frame.drop_flip hindex hfour 4
  have hsum : Frame.storedChecksum ((content.flip (start + index) mask).drop start) =
      Frame.storedChecksum (content.drop start) := by
    rw [drop_flip hstart, Frame.storedChecksum_flip hindex hfour]
  constructor
  case mp =>
    rintro ⟨payload, consumed, hframe, hentry⟩
    obtain ⟨rfl, hmax, hinside, rfl, hchecksum⟩ := Frame.decode_eq_complete_iff.mp hframe
    rw [hlength, hbehind, hsum] at hchecksum
    rw [hlength, hbehind] at hentry
    rw [hlength] at hmax hinside
    rw [hsize] at hinside
    rw [List.length_drop] at hheader
    exact ⟨hmax, by omega, hchecksum, hentry⟩
  case mpr =>
    rintro ⟨hmax, hinside, hchecksum, hentry⟩
    refine ⟨_, _, Frame.decode_eq_complete_iff.mpr ⟨rfl, ?_, ?_, rfl, ?_⟩, ?_⟩
    · rwa [hlength]
    · rw [hlength, hsize]
      omega
    · rw [hlength, hbehind, hsum, hchecksum]
    · rwa [hlength, hbehind]

end Damage

/-! ## Reading up to a record -/

section Runs

variable {content : Bytes} {start stop : Nat} {xs : List Entry}

/-- A chain is told by the octets in front of its end. -/
theorem Chain.take (h : Chain content start stop xs) {size : Nat} (hsize : stop ≤ size) :
    Chain (content.take size) start stop xs := by
  induction h with
  | nil start => exact .nil start
  | @cons start stop consumed _ _ _ hframe hentry rest ih =>
    have hlater := rest.le
    have hinside := (Frame.consumed_of_decode hframe).2
    have hshort : consumed ≤ ((content.drop start).take (size - start)).length := by
      rw [List.length_take]
      omega
    refine .cons ?_ hentry (ih hsize)
    rw [List.drop_take, ← Frame.decode_append_iff ((content.drop start).drop (size - start)) hshort,
      List.take_append_drop]
    exact hframe

/-- Where two files agree in front of the end of a chain, both hold it. -/
theorem Chain.congr (h : Chain content start stop xs) {other : Bytes}
    (hsame : other.take stop = content.take stop) : Chain other start stop xs := by
  have hfront := h.take (Nat.le_refl stop)
  rw [← hsame] at hfront
  have hwhole := hfront.append_right (other.drop stop)
  rwa [List.take_append_drop] at hwhole

namespace Reader

variable {path : String}

/-- A run goes along a chain, and on from where it ends. -/
theorem Reads.of_chain {ys : List Entry} {result : Outcome Unit} {after : Reader} (h : Chain content start stop xs)
    (hrest : Reads (next content) (.start path stop none) ys result after) :
    Reads (next content) (.start path start none) (xs ++ ys) result after := by
  induction h with
  | nil => exact hrest
  | @cons start _ consumed _ _ _ hframe hentry _ ih =>
    have hnext : next content (.start path start none) = _ := next_of_complete rfl hframe
    rw [hentry] at hnext
    exact .entry hnext (ih hrest)

/-- In front of what is not whole a run ends, and marks the file as truncated if something is there. -/
theorem Reads.of_incomplete (path : String) (h : Frame.decode (content.drop stop) = .incomplete) :
    ∃ after, Reads (next content) (.start path stop none) [] (.ok ()) after ∧
      after.position = stop ∧ after.truncated = !(content.drop stop).isEmpty := by
  have hnext : next content (.start path stop none) = _ := next_of_incomplete rfl h
  exact ⟨_, .ended hnext, rfl, torn_of_unlimited rfl⟩

/-- In front of what is no record, though it is not cut off, a run fails. -/
theorem Reads.of_damaged (path : String) (htold : Frame.decode (content.drop stop) ≠ .incomplete)
    (hillegible : ∀ payload consumed entry, Frame.decode (content.drop stop) = .complete payload consumed →
      Entry.decode payload ≠ .ok entry) :
    ∃ detail after, Reads (next content) (.start path stop none) []
        (.error (.log (path ++ " at offset " ++ Decimal.text stop ++ ": " ++ detail))) after ∧
      after.position = stop ∧ after.truncated = false := by
  cases hframe : Frame.decode (content.drop stop) with
  | incomplete => exact absurd hframe htold
  | corrupt fault =>
    obtain ⟨cursor, hnext⟩ : ∃ cursor, next content (.start path stop none) = _ := next_of_corrupt rfl hframe
    exact ⟨_, _, .failed hnext, rfl, rfl⟩
  | complete payload consumed =>
    have hnext : next content (.start path stop none) = _ := next_of_complete rfl hframe
    cases hentry : Entry.decode payload with
    | error error =>
      rw [hentry] at hnext
      exact ⟨_, _, .failed hnext, rfl, rfl⟩
    | ok entry => exact absurd hentry (hillegible payload consumed entry hframe)

/-- A record is answered, and the run goes on somehow. -/
theorem Reads.of_record (path : String) {payload : Bytes} {consumed : Nat} {entry : Entry}
    (hframe : Frame.decode (content.drop stop) = .complete payload consumed)
    (hentry : Entry.decode payload = .ok entry) :
    ∃ rest result after, Reads (next content) (.start path stop none) (entry :: rest) result after := by
  have hnext : next content (.start path stop none) = _ := next_of_complete rfl hframe
  rw [hentry] at hnext
  obtain ⟨after, hrest, -⟩ :=
    reads_decoding content (show (Reader.start path (stop + consumed) none).cursor = stop + consumed from rfl)
  exact ⟨_, _, after, .entry hnext hrest⟩

end Reader

/-! ## How reading a file ends -/

/-- A reader without a limit answers these entries, and its next call fails: the error names the offset, the
position is there, and the file is not marked as truncated. -/
def FailsAt (content : Bytes) (path : String) (entries : List Entry) (offset : Nat) : Prop :=
  ∃ detail after, Reader.Reads (Reader.next content) (.start path 0 none) entries
      (.error (.log (path ++ " at offset " ++ Decimal.text offset ++ ": " ++ detail))) after ∧
    after.position = offset ∧ after.truncated = false

/-- A reader without a limit answers these entries, and takes what follows at the offset for the torn end of
the file. -/
def EndsTornAt (content : Bytes) (path : String) (entries : List Entry) (offset : Nat) : Prop :=
  ∃ after, Reader.Reads (Reader.next content) (.start path 0 none) entries (.ok ()) after ∧
    after.position = offset ∧ after.truncated = true

/-- A reader without a limit answers these entries, whatever it comes to behind them. -/
def Answers (content : Bytes) (path : String) (entries : List Entry) : Prop :=
  ∃ rest result after, Reader.Reads (Reader.next content) (.start path 0 none) (entries ++ rest) result after

variable {path : String} {entry other : Entry} {offset : Nat}

theorem FailsAt.not_endsTornAt (h : FailsAt content path xs offset) : ¬EndsTornAt content path xs offset := by
  rintro ⟨_, hends, -⟩
  obtain ⟨_, _, hfails, -⟩ := h
  obtain ⟨-, hresult, -⟩ := hfails.unique hends
  cases hresult

theorem FailsAt.not_answers (h : FailsAt content path xs offset) : ¬Answers content path (xs ++ [entry]) := by
  rintro ⟨rest, _, _, hanswers⟩
  obtain ⟨_, _, hfails, -⟩ := h
  rw [List.append_assoc] at hanswers
  exact List.cons_ne_nil _ _ (List.self_eq_append_right.mp (hfails.unique hanswers).1)

theorem EndsTornAt.not_answers (h : EndsTornAt content path xs offset) :
    ¬Answers content path (xs ++ [entry]) := by
  rintro ⟨rest, _, _, hanswers⟩
  obtain ⟨_, hends, -⟩ := h
  rw [List.append_assoc] at hanswers
  exact List.cons_ne_nil _ _ (List.self_eq_append_right.mp (hends.unique hanswers).1)

theorem Answers.unique (h : Answers content path (xs ++ [entry])) (h' : Answers content path (xs ++ [other])) :
    entry = other := by
  obtain ⟨rest, _, _, hreads⟩ := h
  obtain ⟨rest', _, _, hreads'⟩ := h'
  have hsame := (hreads.unique hreads').1
  rw [List.append_assoc, List.append_assoc] at hsame
  exact (List.cons.inj (List.append_cancel_left hsame)).1

end Runs

/-! ## A damaged length -/

section Lengths

variable {content damaged : Bytes} {before : List Entry} {start stop index length : Nat} {mask : UInt8}

/-- The record is cut off, or misread, or its damage is detected. -/
theorem front_of_damage (hheader : Frame.headerSize ≤ (content.drop start).length) (hindex : index < 4)
    (hdamaged : damaged = content.flip (start + index) mask)
    (hlength : length = Frame.payloadLength (damaged.drop start)) :
    (Overruns content start length ∧ Frame.decode (damaged.drop start) = .incomplete) ∨
    (∃ other stop, Misread content start length other ∧ Chain damaged start stop [other]) ∨
    (Detected content start length ∧ Damaged damaged start start) := by
  subst hdamaged hlength
  have hcut : Frame.decode ((content.flip (start + index) mask).drop start) = .incomplete ↔ _ :=
    decode_flip_eq_incomplete_iff hheader
  have hread (other : Entry) : (∃ payload consumed,
      Frame.decode ((content.flip (start + index) mask).drop start) = .complete payload consumed ∧
        Entry.decode payload = .ok other) ↔ _ :=
    decode_flip_eq_complete_iff hheader hindex
  by_cases hoverruns : Overruns content start
      (Frame.payloadLength ((content.flip (start + index) mask).drop start))
  case pos => exact .inl ⟨hoverruns, hcut.mpr hoverruns⟩
  case neg =>
    by_cases hmisread : ∃ other, Misread content start
        (Frame.payloadLength ((content.flip (start + index) mask).drop start)) other
    case pos =>
      obtain ⟨other, hother⟩ := hmisread
      obtain ⟨payload, consumed, hframe, hentry⟩ := (hread other).mpr hother
      exact .inr (.inl ⟨other, _, hother, .singleton hframe hentry⟩)
    case neg =>
      refine .inr (.inr ⟨⟨hoverruns, not_exists.mp hmisread⟩, ⟨[], .nil start⟩,
        fun h ↦ hoverruns (hcut.mp h), ?_⟩)
      exact fun payload consumed other hframe hentry ↦
        hmisread ⟨other, (hread other).mp ⟨payload, consumed, hframe, hentry⟩⟩

/-- How reading comes to the damaged record, and ends there or goes on. -/
theorem reads_damaged_front (path : String) (hbefore : Chain damaged 0 start before)
    (hstart : start < damaged.length) :
    (Frame.decode (damaged.drop start) = .incomplete → EndsTornAt damaged path before start) ∧
    (∀ other stop, Chain damaged start stop [other] → Answers damaged path (before ++ [other])) ∧
    (Damaged damaged start start → FailsAt damaged path before start) := by
  refine ⟨fun hincomplete ↦ ?_, fun other stop hrecord ↦ ?_, fun hdamage ↦ ?_⟩
  · obtain ⟨after, hreads, hposition, htruncated⟩ := Reader.Reads.of_incomplete path hincomplete
    have hall := Reader.Reads.of_chain hbefore hreads
    rw [List.append_nil] at hall
    have hsome : damaged.drop start ≠ [] := by
      rw [ne_eq, List.drop_eq_nil_iff]
      omega
    rw [List.isEmpty_eq_false_iff.mpr hsome] at htruncated
    exact ⟨after, hall, hposition, htruncated⟩
  · cases hrecord with
    | cons hframe hentry _ =>
      obtain ⟨rest, result, after, hreads⟩ := Reader.Reads.of_record path hframe hentry
      have hall := Reader.Reads.of_chain hbefore hreads
      rw [← List.singleton_append, ← List.append_assoc] at hall
      exact ⟨rest, result, after, hall⟩
  · obtain ⟨detail, after, hreads, hposition, htruncated⟩ :=
      Reader.Reads.of_damaged path hdamage.told hdamage.illegible
    have hall := Reader.Reads.of_chain hbefore hreads
    rw [List.append_nil] at hall
    exact ⟨detail, after, hall, hposition, htruncated⟩

/-- A record has a header, which lies within the file. -/
theorem Chain.header_le {entry : Entry} (h : Chain content start stop [entry]) :
    Frame.headerSize ≤ (content.drop start).length := by
  cases h with
  | cons hframe _ _ =>
    have hbounds := Frame.consumed_of_decode hframe
    omega

theorem Chain.start_lt {entry : Entry} (h : Chain content start stop [entry]) : start < content.length := by
  have hheader := h.header_le
  rw [List.length_drop, Frame.headerSize] at hheader
  omega

/-- A file with a damaged length is read up to the record, and there as the length leads. -/
theorem reads_damaged_length (path : String) {entry : Entry} (hbefore : Chain content 0 start before)
    (hrecord : Chain content start stop [entry]) (hindex : index < 4)
    (hdamaged : damaged = content.flip (start + index) mask)
    (hlength : length = Frame.payloadLength (damaged.drop start)) :
    (FailsAt damaged path before start ↔ Detected content start length) ∧
      (EndsTornAt damaged path before start ↔ Overruns content start length) ∧
      ∀ other, Answers damaged path (before ++ [other]) ↔ Misread content start length other := by
  have hheader := hrecord.header_le
  have hinside := hrecord.start_lt
  have hsame : damaged.take start = content.take start := by
    rw [hdamaged, take_flip (Nat.le_of_lt hinside)]
  have hsize : start < damaged.length := by
    rwa [hdamaged, Bytes.length_flip]
  obtain ⟨hends, hanswers, hfails⟩ := reads_damaged_front path (hbefore.congr hsame) hsize
  -- The three cases exclude each other, and so do the ways to read on.
  rcases front_of_damage hheader hindex hdamaged hlength with
    ⟨hoverruns, hincomplete⟩ | ⟨other, _, hmisread, hfront⟩ | ⟨hdetected, hdamage⟩
  · have htorn := hends hincomplete
    refine ⟨iff_of_false (fun h ↦ h.not_endsTornAt htorn) fun h ↦ h.1 hoverruns, iff_of_true htorn hoverruns,
      fun other ↦ iff_of_false htorn.not_answers fun h ↦ ?_⟩
    exact Nat.not_lt.mpr h.inside hoverruns.2
  · have hanswer := hanswers other _ hfront
    have hnot : ¬Overruns content start length := fun h ↦ Nat.not_lt.mpr hmisread.inside h.2
    refine ⟨iff_of_false (fun h ↦ h.not_answers hanswer) fun h ↦ h.2 other hmisread,
      iff_of_false (fun h ↦ h.not_answers hanswer) hnot, fun third ↦ ⟨fun h ↦ ?_, fun h ↦ ?_⟩⟩
    · rwa [h.unique hanswer]
    · rwa [Except.ok.inj (h.decode.symm.trans hmisread.decode)]
  · have hfail := hfails hdamage
    exact ⟨iff_of_true hfail hdetected, iff_of_false hfail.not_endsTornAt hdetected.1,
      fun other ↦ iff_of_false hfail.not_answers (hdetected.2 other)⟩

end Lengths

end Log

end LogShipping
