import Mathlib.Order.Bounds.Defs
import LogShipping.Proofs.Log.Chains

/-!
# Passes of a reader

A pass reads the entries that lie ahead of its reader up to the first count at which a limit is reached, or
all of them. What they are, and what keeps the next one from being read, is told by decoding the octets ahead,
and so is the whole answer of a pass: the entries kept, their size, the offset behind the last entry read,
whether the end was reached, and whether the pass fails.

A file comes out the same, however it is cut into batches, if each pass has a reader of its own, opened where
the pass before ended. A reader that is kept answers as it should as long as its cursor is at its position.
An error that was put off leaves the cursor behind the record it is about; from then on the reader answers
as it should only where it fails again, or reads nothing.
-/

namespace LogShipping

namespace Log

/-! ## Chains and what is decoded -/

variable {content : Bytes} {start stop : Nat} {xs : List Entry}

/-- Decoding goes along a chain, and on from where it ends. -/
theorem decoding_of_chain (h : Chain content start stop xs) :
    (decoding (content.drop start)).entries = xs ++ (decoding (content.drop stop)).entries ∧
      (decoding (content.drop start)).halt = (decoding (content.drop stop)).halt := by
  induction h with
  | nil start => exact ⟨rfl, rfl⟩
  | cons hframe hentry _ ih =>
    rw [decoding_of_record hframe hentry, Decoding.behind, List.drop_drop, ih.1, ih.2]
    exact ⟨rfl, rfl⟩

/-- A chain ends within the file. -/
theorem Chain.stop_le (h : Chain content start stop xs) : stop ≤ max start content.length := by
  induction h with
  | nil start => exact Nat.le_max_left _ _
  | @cons start stop consumed _ _ _ hframe _ _ ih =>
    have hinside := (Frame.consumed_of_decode hframe).2
    rw [List.length_drop] at hinside
    omega

/-- Whole records are decoded up to their end. -/
theorem decoding_of_records {bytes : Bytes} (h : Records bytes xs) :
    decoding bytes = ⟨xs, bytes.length, .incomplete⟩ := by
  induction xs generalizing bytes with
  | nil =>
    rw [records_nil_iff.mp h]
    exact decoding_of_incomplete rfl
  | cons entry rest ih =>
    obtain ⟨payload, consumed, hframe, hentry, hrest⟩ := records_cons_iff.mp h
    have hinside := (Frame.consumed_of_decode hframe).2
    rw [decoding_of_record hframe hentry, ih hrest, Decoding.behind, List.length_drop,
      Nat.add_sub_cancel' hinside]

/-! ## Calls of a reader -/

namespace Reader

variable {reader after : Reader}

/-- The octets that the limit lets be read. -/
def visible (content : Bytes) (reader : Reader) : Bytes := reader.limit.elim content content.take

theorem length_visible_le (content : Bytes) (reader : Reader) :
    (reader.visible content).length ≤ content.length := by
  rw [visible]
  cases reader.limit with
  | none => exact Nat.le_refl _
  | some limit => exact List.length_take_le' limit content

theorem settle_error {frame : Bytes} {error : Error} (h : reader.settle frame = (.error error, after)) :
    after.position = reader.position ∧ after.limit = reader.limit := by
  unfold settle at h
  dsimp only at h
  split at h
  case h_1 => cases h
  case h_2 =>
    cases h
    exact ⟨rfl, rfl⟩
  case h_3 =>
    split at h
    case h_1 =>
      cases h
      exact ⟨rfl, rfl⟩
    case h_2 => cases h

/-- A call that fails leaves the position where it was. -/
theorem nextFrom_error {error : Error} (h : reader.nextFrom (.file content) = (.error error, after)) :
    after.position = reader.position ∧ after.limit = reader.limit := by
  unfold nextFrom next at h
  by_cases hheader : reader.exceeds Frame.headerSize = true
  case pos =>
    rw [if_pos hheader] at h
    cases h
  case neg =>
    rw [if_neg hheader] at h
    dsimp only at h
    split at h
    case isTrue =>
      cases h
      exact ⟨rfl, rfl⟩
    case isFalse =>
      -- Of the answers for what is there, only that for the octets of one record is an error.
      split at h
      case isTrue => cases h
      split at h
      case isTrue => cases h
      split at h
      case isTrue => exact settle_error h
      split at h
      case isTrue => cases h
      case isFalse => exact settle_error h

/-- Without a limit a reader answers the record at its cursor, wherever its position is. -/
theorem next_at_cursor {entry : Entry} {more : Bytes} (hlimit : reader.limit = none)
    (hsize : entry.payload.length ≤ Frame.maxPayload)
    (hrest : content.drop reader.cursor = entry.encode ++ more) :
    (reader.next content).1 = .ok (some entry) := by
  have hframe := Frame.decode_encode_append hsize more
  have honward : reader.onward content = entry.encode ++ more := by
    rw [onward, hlimit, Option.elim_none, hrest]
  rw [← Entry.encode, ← honward] at hframe
  rw [next_complete hframe, entry.decode_payload]

/-- A corrupt frame is read to its end, though it is an error. -/
theorem next_behind_corrupt {fault : Frame.Fault} (hcursor : reader.cursor = reader.position)
    (hsize : Frame.payloadLength (reader.ahead content) ≤ Frame.maxPayload)
    (h : Frame.decode (reader.ahead content) = .corrupt fault) :
    reader.next content = (.error (reader.corrupt fault.message),
      { reader with
        cursor := reader.position + (Frame.headerSize + Frame.payloadLength (reader.ahead content)) }) := by
  rw [← onward_eq_ahead content hcursor] at hsize h ⊢
  rw [next_corrupt h, Frame.extent, if_neg (Nat.not_lt.mpr hsize), hcursor]

end Reader

end Log

namespace Batch

open Log

/-! ## What a pass has to answer -/

/-- What the filter leaves of some entries. -/
def kept (schema : Schema) (entries : List Entry) : List Entry := entries.filterMap (Entry.filter schema)

/-- What some entries count against the limit on the size. -/
def weight (entries : List Entry) : Nat := entries.foldr (fun entry size ↦ entry.heapSize + size) 0

/-- A limit is reached once these entries were read. -/
def Limits.Reached (limits : Limits) (schema : Schema) (read : List Entry) : Prop :=
  limits.count ≤ read.length ∨ limits.size ≤ weight (kept schema read)

/-- What lies ahead of a reader, decoded. -/
def upcoming (content : Bytes) (reader : Reader) : Decoding := decoding (reader.ahead content)

/-- The batch covers the entries ahead up to the first count at which a limit is reached, or all of them. -/
structure Covers (content : Bytes) (schema : Schema) (limits : Limits) (reader : Reader) (batch : Batch) :
    Prop where
  least : IsLeast {count | limits.Reached schema ((upcoming content reader).entries.take count) ∨
    count = (upcoming content reader).entries.length} batch.read
  entries : batch.entries = kept schema ((upcoming content reader).entries.take batch.read)
  heapSize : batch.heapSize = weight batch.entries
  start : batch.start = reader.position
  stop : Chain (reader.visible content) reader.position batch.stop
    ((upcoming content reader).entries.take batch.read)
  exhausted : batch.exhausted = true ↔
    ¬limits.Reached schema ((upcoming content reader).entries.take batch.read) ∧
      (upcoming content reader).halt = .incomplete

/-- The limits admit an entry, but what is ahead first cannot be read. -/
def Blocked (content : Bytes) (schema : Schema) (limits : Limits) (reader : Reader) : Prop :=
  (upcoming content reader).entries = [] ∧ (upcoming content reader).halt ≠ .incomplete ∧
    ¬limits.Reached schema []

/-- The answer of a pass is what decoding the octets ahead makes it. -/
def Conforms (content : Bytes) (schema : Schema) (limits : Limits) (reader : Reader) :
    Outcome Batch → Prop
  | .ok batch => Covers content schema limits reader batch ∧ ¬Blocked content schema limits reader
  | .error _ => Blocked content schema limits reader

/-- A reader comes to another state by passes, each of which answers as it should. -/
inductive Follows (content : Bytes) (schema : Schema) : Reader → Reader → Prop
  | refl (reader : Reader) : Follows content schema reader reader
  | pass {reader middle : Reader} (limits : Limits) (h : Follows content schema reader middle)
      (hconforms : Conforms content schema limits middle
        (take (.file content) schema limits middle).1) :
      Follows content schema reader (take (.file content) schema limits middle).2

/-- Passes with chosen limits, each with a reader opened where the pass before ended, up to the first that comes
to the end or fails, ship these entries together. -/
inductive Rereads (content : Bytes) (schema : Schema) (path : String) (limit : Option Nat) :
    (Nat → Limits) → Nat → List Entry → Prop
  | ended {choice : Nat → Limits} {offset : Nat} {batch : Batch}
      (h : (take (.file content) schema (choice 0) (Reader.start path offset limit)).1 = .ok batch)
      (hended : batch.exhausted = true) :
      Rereads content schema path limit choice offset batch.entries
  | failed {choice : Nat → Limits} {offset : Nat} {error : Error}
      (h : (take (.file content) schema (choice 0) (Reader.start path offset limit)).1 = .error error) :
      Rereads content schema path limit choice offset []
  | again {choice : Nat → Limits} {offset : Nat} {batch : Batch} {entries : List Entry}
      (h : (take (.file content) schema (choice 0) (Reader.start path offset limit)).1 = .ok batch)
      (hmore : batch.exhausted = false)
      (rest : Rereads content schema path limit (fun turn ↦ choice (turn + 1)) batch.stop entries) :
      Rereads content schema path limit choice offset (batch.entries ++ entries)

/-! ## The course of a pass -/

section Course

variable {content : Bytes} {schema : Schema} {limits : Limits} {reader after : Reader}
  {read before : List Entry} {halt : Halt}

theorem kept_append (schema : Schema) (xs ys : List Entry) :
    kept schema (xs ++ ys) = kept schema xs ++ kept schema ys := List.filterMap_append

theorem weight_cons (entry : Entry) (entries : List Entry) :
    weight (entry :: entries) = entry.heapSize + weight entries := rfl

theorem weight_append (xs ys : List Entry) : weight (xs ++ ys) = weight xs + weight ys := by
  induction xs with
  | nil => exact (Nat.zero_add _).symm
  | cons entry rest ih => rw [List.cons_append, weight_cons, weight_cons, ih, Nat.add_assoc]

/-- The batch of a pass that has read some entries. -/
def gathered (schema : Schema) (offset : Nat) (read : List Entry) : Batch :=
  ⟨kept schema read, weight (kept schema read), read.length, offset, offset, false, false⟩

theorem gathered_add (schema : Schema) (offset : Nat) (read : List Entry) (entry : Entry) :
    (gathered schema offset read).add (entry.filter schema) = gathered schema offset (read ++ [entry]) := by
  have hkept : kept schema (read ++ [entry]) = kept schema read ++ (entry.filter schema).toList := by
    rw [kept_append, kept, kept, List.filterMap_cons, List.filterMap_nil]
    cases entry.filter schema <;> rfl
  rw [gathered, gathered, hkept, weight_append, List.length_append]
  cases entry.filter schema with
  | none => simp [add, weight]
  | some entry => simp [add, weight]

/-- How a pass ends that has read these entries, if decoding them came to this halt. -/
inductive Finish (schema : Schema) (limits : Limits) (offset : Nat) (read : List Entry) (halt : Halt)
    (after : Reader) : Outcome Batch → Prop
  | limited (hreached : limits.Reached schema read) (hcursor : after.cursor = after.position) :
      Finish schema limits offset read halt after (.ok (gathered schema offset read))
  | ended (hreached : ¬limits.Reached schema read) (hhalt : halt = .incomplete)
      (hcursor : after.cursor = after.position) :
      Finish schema limits offset read halt after (.ok { gathered schema offset read with exhausted := true })
  | deferred (hreached : ¬limits.Reached schema read) (hhalt : halt ≠ .incomplete) (hread : read ≠ []) :
      Finish schema limits offset read halt after (.ok (gathered schema offset read))
  | failed (hreached : ¬limits.Reached schema read) (hhalt : halt ≠ .incomplete) (hread : read = [])
      (error : Error) : Finish schema limits offset read halt after (.error error)

/-- The counts of entries at which a pass may end that has read some entries before. -/
def Limits.Ends (limits : Limits) (schema : Schema) (before entries : List Entry) (count : Nat) : Prop :=
  limits.Reached schema (before ++ entries.take count) ∨ count = entries.length

theorem Limits.Ends.isLeast_zero {entries : List Entry} (h : limits.Ends schema before entries 0) :
    IsLeast {count | limits.Ends schema before entries count} 0 :=
  ⟨h, fun _ _ ↦ Nat.zero_le _⟩

/-- If no limit is reached yet, one more entry is read. -/
theorem Limits.Ends.isLeast_succ {entry : Entry} {entries : List Entry} {count : Nat}
    (hreached : ¬limits.Reached schema before)
    (h : IsLeast {count | limits.Ends schema (before ++ [entry]) entries count} count) :
    IsLeast {count | limits.Ends schema before (entry :: entries) count} (count + 1) := by
  have hshift (count : Nat) : limits.Ends schema before (entry :: entries) (count + 1) ↔
      limits.Ends schema (before ++ [entry]) entries count := by
    rw [Limits.Ends, Limits.Ends, List.take_succ_cons, List.append_assoc, List.singleton_append,
      List.length_cons, Nat.add_right_cancel_iff]
  refine ⟨(hshift count).mpr h.1, fun other hother ↦ ?_⟩
  cases other with
  | zero =>
    rcases hother with hlimit | hlength
    · rw [List.take_zero, List.append_nil] at hlimit
      exact absurd hlimit hreached
    · exact absurd hlength (Nat.succ_ne_zero _).symm
  | succ other => exact Nat.succ_le_succ (h.2 ((hshift other).mp hother))

/-- The block of the next call ends within the largest offset, wherever a pass comes to. -/
def Fits (content : Bytes) (reader : Reader) : Prop :=
  max reader.position content.length + Reader.block ≤ Reader.maxOffset

theorem Fits.nextFrom (h : Fits content reader) (hcursor : reader.cursor = reader.position) :
    reader.nextFrom (.file content) = reader.next content := by
  apply Reader.nextFrom_file
  rw [Fits] at h
  omega

theorem Fits.of_chain (h : Fits content reader)
    (hchain : Chain (reader.visible content) reader.position after.position read) : Fits content after := by
  have hstop := hchain.stop_le
  have hvisible := Reader.length_visible_le content reader
  rw [Fits] at h ⊢
  omega

theorem upcoming_of_chain (h : Chain (reader.visible content) reader.position after.position read)
    (hlimit : after.limit = reader.limit) :
    (upcoming content reader).entries = read ++ (upcoming content after).entries ∧
      (upcoming content reader).halt = (upcoming content after).halt := by
  have hahead : after.ahead content = (reader.visible content).drop after.position := by
    rw [Reader.ahead, hlimit, Reader.visible]
  rw [upcoming, upcoming, hahead]
  exact decoding_of_chain h

/-- A call answers the first entry ahead, none in front of what is not whole, or an error in front of what
cannot be read. -/
theorem next_upcoming (hcursor : reader.cursor = reader.position) :
    (∃ after, reader.next content = (.ok none, after) ∧ after.cursor = after.position ∧
      after.position = reader.position ∧ after.limit = reader.limit ∧
      (upcoming content reader).entries = [] ∧ (upcoming content reader).halt = .incomplete) ∨
    (∃ error after, reader.next content = (.error error, after) ∧
      after.position = reader.position ∧ after.limit = reader.limit ∧
      (upcoming content reader).entries = [] ∧ (upcoming content reader).halt ≠ .incomplete) ∨
    (∃ entry consumed, reader.next content = (.ok (some entry), reader.pass consumed) ∧
      Chain (reader.visible content) reader.position (reader.pass consumed).position [entry]) := by
  unfold upcoming
  cases hframe : Frame.decode (reader.ahead content) with
  | incomplete =>
    rw [decoding_of_incomplete hframe]
    exact .inl ⟨_, Reader.next_of_incomplete hcursor hframe, hcursor, rfl, rfl, rfl, rfl⟩
  | corrupt fault =>
    obtain ⟨cursor, hnext⟩ := Reader.next_of_corrupt hcursor hframe
    rw [decoding_of_corrupt hframe]
    exact .inr (.inl ⟨_, _, hnext, rfl, rfl, rfl, Halt.noConfusion⟩)
  | complete payload consumed =>
    have hnext := Reader.next_of_complete hcursor hframe
    cases hentry : Entry.decode payload with
    | error error =>
      rw [hentry] at hnext
      rw [decoding_of_illegible hframe hentry]
      exact .inr (.inl ⟨_, _, hnext, rfl, rfl, rfl, Halt.noConfusion⟩)
    | ok entry =>
      rw [hentry] at hnext
      exact .inr (.inr ⟨entry, consumed, hnext, .singleton hframe hentry⟩)

/-- A pass that has read some entries before reads a count of those ahead, the first at which it may end, and
ends so. -/
structure Proceeds (content : Bytes) (schema : Schema) (limits : Limits) (offset : Nat) (before : List Entry)
    (reader : Reader) (count : Nat) (result : Outcome Batch) (after : Reader) : Prop where
  least : IsLeast {count | limits.Ends schema before (upcoming content reader).entries count} count
  chain : Chain (reader.visible content) reader.position after.position
    ((upcoming content reader).entries.take count)
  limit : after.limit = reader.limit
  finish : Finish schema limits offset (before ++ (upcoming content reader).entries.take count)
    (upcoming content reader).halt after result

namespace Proceeds

variable {offset : Nat} {result : Outcome Batch}

/-- Nothing more is read. -/
theorem here (hends : limits.Ends schema before (upcoming content reader).entries 0)
    (hposition : after.position = reader.position) (hlimit : after.limit = reader.limit)
    (hfinish : Finish schema limits offset before (upcoming content reader).halt after result) :
    Proceeds content schema limits offset before reader 0 result after where
  least := hends.isLeast_zero
  chain := by
    rw [List.take_zero, hposition]
    exact .nil _
  limit := hlimit
  finish := by
    rw [List.take_zero, List.append_nil]
    exact hfinish

/-- Nothing more is read once a limit is reached. -/
theorem limited (hreached : limits.Reached schema before) (hcursor : reader.cursor = reader.position) :
    Proceeds content schema limits offset before reader 0 (.ok (gathered schema offset before)) reader :=
  .here (.inl (by rwa [List.take_zero, List.append_nil])) rfl rfl (.limited hreached hcursor)

/-- One entry is read, and the pass goes on behind it. -/
theorem behind {entry : Entry} {consumed count : Nat} (hreached : ¬limits.Reached schema before)
    (hchain : Chain (reader.visible content) reader.position (reader.pass consumed).position [entry])
    (h : Proceeds content schema limits offset (before ++ [entry]) (reader.pass consumed) count result
      after) : Proceeds content schema limits offset before reader (count + 1) result after := by
  obtain ⟨hentries, hhalt⟩ := upcoming_of_chain hchain rfl
  obtain ⟨hleast, hrest, hlimit, hfinish⟩ := h
  rw [List.singleton_append] at hentries
  constructor
  case least =>
    rw [hentries]
    exact Limits.Ends.isLeast_succ hreached hleast
  case chain =>
    rw [hentries, List.take_succ_cons]
    exact hchain.append hrest
  case limit => exact hlimit
  case finish =>
    rw [hentries, hhalt, List.take_succ_cons, ← List.singleton_append, ← List.append_assoc]
    exact hfinish

end Proceeds

/-- A pass goes along what is ahead, and ends at the first count at which it may. The induction is on the
turns that are left: an entry that was read is the last of those before. -/
theorem gather_proceeds (turns offset : Nat) (hturns : before.length + turns = limits.count)
    (hcursor : reader.cursor = reader.position) (hfits : Fits content reader) :
    ∃ count result after,
      gather (.file content) schema limits turns (gathered schema offset before) reader = (result, after) ∧
      Proceeds content schema limits offset before reader count result after := by
  induction turns generalizing before reader with
  | zero => exact ⟨0, _, reader, rfl, .limited (.inl (Nat.le_of_eq hturns.symm)) hcursor⟩
  | succ turns ih =>
    rw [gather]
    by_cases hsize : limits.size ≤ (gathered schema offset before).heapSize
    case pos =>
      rw [if_pos hsize]
      exact ⟨0, _, reader, rfl, .limited (.inr hsize) hcursor⟩
    case neg =>
      have hreached : ¬limits.Reached schema before := not_or.mpr ⟨by omega, hsize⟩
      rw [if_neg hsize, hfits.nextFrom hcursor]
      rcases next_upcoming hcursor with
        ⟨after, hnext, hagree, hposition, hlimit, hnone, hhalt⟩ |
        ⟨error, after, hnext, hposition, hlimit, hnone, hhalt⟩ | ⟨entry, consumed, hnext, hchain⟩
      · have hends : limits.Ends schema before (upcoming content reader).entries 0 :=
          .inr (by rw [hnone]; rfl)
        rw [hnext]
        exact ⟨0, _, after, rfl, .here hends hposition hlimit (.ended hreached hhalt hagree)⟩
      · have hends : limits.Ends schema before (upcoming content reader).entries 0 :=
          .inr (by rw [hnone]; rfl)
        rw [hnext]
        by_cases hread : 0 < before.length
        case pos =>
          have hsome : before ≠ [] := List.ne_nil_of_length_pos hread
          exact ⟨0, _, after, if_pos hread, .here hends hposition hlimit (.deferred hreached hhalt hsome)⟩
        case neg =>
          have hnil : before = [] := List.eq_nil_of_length_eq_zero (Nat.eq_zero_of_not_pos hread)
          exact ⟨0, _, after, if_neg hread, .here hends hposition hlimit (.failed hreached hhalt hnil error)⟩
      · have hleft : (before ++ [entry]).length + turns = limits.count := by
          rw [List.length_append, List.length_singleton]
          omega
        obtain ⟨count, result, after, hgather, hproceeds⟩ := ih hleft rfl (hfits.of_chain hchain)
        rw [hnext]
        dsimp only
        rw [gathered_add]
        exact ⟨count + 1, result, after, hgather, hproceeds.behind hreached hchain⟩

end Course

/-! ## One pass -/

section Pass

variable {content : Bytes} {schema : Schema} {limits : Limits} {reader after : Reader}

/-- The answer of a pass, from what gathering comes to. -/
theorem take_eq {result : Outcome Batch}
    (h : gather (.file content) schema limits limits.count (gathered schema reader.position []) reader =
      (result, after)) :
    take (.file content) schema limits reader =
      (result.map fun batch ↦ { batch with stop := after.position, truncated := after.truncated }, after) := by
  have hstart : gathered schema reader.position [] =
      ⟨[], 0, 0, reader.position, reader.position, false, false⟩ := rfl
  unfold take
  dsimp only
  rw [← hstart, h]
  cases result with
  | error error => rfl
  | ok batch => rfl

namespace Proceeds

variable {count : Nat} {result : Outcome Batch}

theorem length_take (h : Proceeds content schema limits reader.position [] reader count result after) :
    ((upcoming content reader).entries.take count).length = count := by
  rw [List.length_take, Nat.min_eq_left (h.least.2 (.inr rfl))]

/-- Without a limit reached, a pass reads all that is ahead. -/
theorem take_eq_self (h : Proceeds content schema limits reader.position [] reader count result after)
    (hreached : ¬limits.Reached schema ((upcoming content reader).entries.take count)) :
    (upcoming content reader).entries.take count = (upcoming content reader).entries := by
  rw [h.least.1.resolve_left hreached, List.take_length]

theorem covers (h : Proceeds content schema limits reader.position [] reader count result after)
    {exhausted : Bool} (hexhausted : exhausted = true ↔
      ¬limits.Reached schema ((upcoming content reader).entries.take count) ∧
        (upcoming content reader).halt = .incomplete) :
    Covers content schema limits reader
      { gathered schema reader.position ((upcoming content reader).entries.take count) with
        exhausted, stop := after.position, truncated := after.truncated } := by
  have hread := h.length_take
  constructor
  case least =>
    rw [gathered, hread]
    exact h.least
  case entries => rw [gathered, hread]
  case heapSize => rfl
  case start => rfl
  case stop =>
    rw [gathered, hread]
    exact h.chain
  case exhausted =>
    rw [gathered, hread]
    exact hexhausted

theorem conforms (h : Proceeds content schema limits reader.position [] reader count result after) :
    Conforms content schema limits reader
      (result.map fun batch ↦ { batch with stop := after.position, truncated := after.truncated }) := by
  have hfinish := h.finish
  rw [List.nil_append] at hfinish
  cases hfinish with
  | limited hreached hcursor =>
    refine ⟨h.covers (iff_of_false Bool.false_ne_true fun hend ↦ hend.1 hreached),
      fun hblocked ↦ hblocked.2.2 ?_⟩
    rwa [hblocked.1, List.take_nil] at hreached
  | ended hreached hhalt hcursor =>
    exact ⟨h.covers ⟨fun _ ↦ ⟨hreached, hhalt⟩, fun _ ↦ rfl⟩, fun hblocked ↦ hblocked.2.1 hhalt⟩
  | deferred hreached hhalt hread =>
    refine ⟨h.covers (iff_of_false Bool.false_ne_true fun hend ↦ hhalt hend.2),
      fun hblocked ↦ hread ?_⟩
    rw [hblocked.1, List.take_nil]
  | failed hreached hhalt hread error =>
    refine ⟨(h.take_eq_self hreached).symm.trans hread, hhalt, ?_⟩
    rwa [hread] at hreached

end Proceeds

/-- The cursor is at the position, or what is ahead first cannot be read. -/
def Settled (content : Bytes) (reader : Reader) : Prop :=
  reader.cursor = reader.position ∨
    (upcoming content reader).entries = [] ∧ (upcoming content reader).halt ≠ .incomplete

theorem Proceeds.settled {count : Nat} {result : Outcome Batch}
    (h : Proceeds content schema limits reader.position [] reader count result after) :
    Settled content after := by
  have hall (hreached : ¬limits.Reached schema ((upcoming content reader).entries.take count))
      (hhalt : (upcoming content reader).halt ≠ .incomplete) : Settled content after := by
    obtain ⟨hentries, hsame⟩ := upcoming_of_chain h.chain h.limit
    rw [h.take_eq_self hreached] at hentries
    exact .inr ⟨List.self_eq_append_right.mp hentries, hsame ▸ hhalt⟩
  have hfinish := h.finish
  rw [List.nil_append] at hfinish
  cases hfinish with
  | limited _ hcursor => exact .inl hcursor
  | ended _ _ hcursor => exact .inl hcursor
  | deferred hreached hhalt _ => exact hall hreached hhalt
  | failed hreached hhalt _ _ => exact hall hreached hhalt

/-- A pass of a reader whose cursor is at its position answers as it should, and leaves the reader within
what it can read. -/
theorem take_of_cursor (hcursor : reader.cursor = reader.position) (hfits : Fits content reader) :
    Conforms content schema limits reader (take (.file content) schema limits reader).1 ∧
      Fits content (take (.file content) schema limits reader).2 ∧
      Settled content (take (.file content) schema limits reader).2 := by
  have hturns : ([] : List Entry).length + limits.count = limits.count := Nat.zero_add _
  obtain ⟨count, result, after, hgather, hproceeds⟩ :=
    gather_proceeds limits.count reader.position hturns hcursor hfits
  rw [take_eq hgather]
  exact ⟨hproceeds.conforms, hfits.of_chain hproceeds.chain, hproceeds.settled⟩

/-- Wherever its cursor is, a reader answers as it should if a limit is reached at once. -/
theorem take_of_reached (hreached : limits.Reached schema []) :
    Conforms content schema limits reader (take (.file content) schema limits reader).1 ∧
      (take (.file content) schema limits reader).2 = reader := by
  have hgather : gather (.file content) schema limits limits.count (gathered schema reader.position []) reader =
      (.ok (gathered schema reader.position []), reader) := by
    cases hcount : limits.count with
    | zero => rfl
    | succ turns =>
      have hsize : limits.size ≤ (gathered schema reader.position []).heapSize :=
        hreached.resolve_left (by rw [hcount]; exact Nat.not_succ_le_zero turns)
      rw [gather, if_pos hsize]
  rw [take_eq hgather]
  refine ⟨⟨?_, fun hblocked ↦ hblocked.2.2 hreached⟩, rfl⟩
  constructor
  case least => exact ⟨.inl hreached, fun _ _ ↦ Nat.zero_le _⟩
  case entries => rfl
  case heapSize => rfl
  case start => rfl
  case stop => exact .nil _
  case exhausted => exact iff_of_false Bool.false_ne_true fun hend ↦ hend.1 hreached

/-- Behind an entry that was read a pass does not fail. -/
theorem gather_ok (turns : Nat) {batch : Batch} (hread : 0 < batch.read) :
    ∃ result, (gather (.file content) schema limits turns batch reader).1 = .ok result := by
  induction turns generalizing batch reader with
  | zero => exact ⟨_, rfl⟩
  | succ turns ih =>
    rw [gather]
    split
    case isTrue => exact ⟨_, rfl⟩
    case isFalse =>
      split
      case h_1 entry middle _ =>
        refine ih ?_
        cases entry.filter schema <;> exact Nat.succ_pos _
      case h_2 => exact ⟨_, rfl⟩
      case h_3 => exact ⟨_, rfl⟩

/-- If the limits admit an entry, a pass fails if and only if its first call does, and leaves the reader as
that call leaves it. -/
theorem take_eq_error_iff (hreached : ¬limits.Reached schema []) {error : Error} :
    take (.file content) schema limits reader = (.error error, after) ↔
      reader.nextFrom (.file content) = (.error error, after) := by
  obtain ⟨hcount, hsize⟩ := not_or.mp hreached
  have hgather : gather (.file content) schema limits limits.count (gathered schema reader.position []) reader =
      (.error error, after) ↔ reader.nextFrom (.file content) = (.error error, after) := by
    cases hturns : limits.count with
    | zero => exact absurd (Nat.le_of_eq hturns) hcount
    | succ turns =>
      have hsize : ¬limits.size ≤ (gathered schema reader.position []).heapSize := hsize
      rw [gather, if_neg hsize]
      obtain ⟨answer, middle⟩ := reader.nextFrom (.file content)
      rcases answer with failure | _ | entry
      case error =>
        have hnone : ¬0 < (gathered schema reader.position []).read := Nat.lt_irrefl 0
        dsimp only
        rw [if_neg hnone, Prod.mk.injEq, Prod.mk.injEq, Except.error.injEq, Except.error.injEq]
      case ok.none => simp only [Prod.mk.injEq, reduceCtorEq, false_and]
      case ok.some =>
        dsimp only
        rw [gathered_add]
        obtain ⟨result, hresult⟩ : ∃ result, (gather (.file content) schema limits turns
            (gathered schema reader.position [entry]) middle).1 = .ok result := gather_ok turns Nat.one_pos
        rw [List.nil_append, Prod.ext_iff, hresult]
        simp only [Prod.mk.injEq, reduceCtorEq, false_and]
  rw [← hgather]
  cases hresult : gather (.file content) schema limits limits.count
      (gathered schema reader.position []) reader with
  | mk result middle =>
    rw [take_eq hresult]
    cases result with
    | error _ => exact Iff.rfl
    | ok _ => simp only [Except.map, Prod.mk.injEq, reduceCtorEq, false_and]

/-- In front of what cannot be read, a reader answers as it should if and only if it is to read nothing, or
fails. -/
theorem conforms_iff_of_damage (hentries : (upcoming content reader).entries = [])
    (hhalt : (upcoming content reader).halt ≠ .incomplete) :
    Conforms content schema limits reader (take (.file content) schema limits reader).1 ↔
      limits.Reached schema [] ∨ ∃ error after, reader.nextFrom (.file content) = (.error error, after) := by
  by_cases hreached : limits.Reached schema []
  case pos => exact ⟨fun _ ↦ .inl hreached, fun _ ↦ (take_of_reached hreached).1⟩
  case neg =>
    rw [or_iff_right hreached]
    constructor
    case mp =>
      intro hconforms
      cases htake : take (.file content) schema limits reader with
      | mk answer after =>
        rw [htake] at hconforms
        cases answer with
        | error error => exact ⟨error, after, (take_eq_error_iff hreached).mp htake⟩
        | ok batch => exact absurd ⟨hentries, hhalt, hreached⟩ hconforms.2
    case mpr =>
      rintro ⟨error, after, hnext⟩
      rw [(take_eq_error_iff hreached).mpr hnext]
      exact ⟨hentries, hhalt, hreached⟩

/-- A pass that answers as it should leaves the reader settled. -/
theorem settled_take (hsettled : Settled content reader) (hfits : Fits content reader)
    (hconforms : Conforms content schema limits reader (take (.file content) schema limits reader).1) :
    Fits content (take (.file content) schema limits reader).2 ∧
      Settled content (take (.file content) schema limits reader).2 := by
  rcases hsettled with hcursor | ⟨hentries, hhalt⟩
  · exact (take_of_cursor hcursor hfits).2
  · by_cases hreached : limits.Reached schema []
    case pos =>
      rw [(take_of_reached hreached).2]
      exact ⟨hfits, .inr ⟨hentries, hhalt⟩⟩
    case neg =>
      obtain ⟨error, after, hnext⟩ :=
        ((conforms_iff_of_damage hentries hhalt).mp hconforms).resolve_left hreached
      obtain ⟨hposition, hlimit⟩ := Reader.nextFrom_error hnext
      rw [(take_eq_error_iff hreached).mpr hnext, Fits, Settled, upcoming, Reader.ahead, hposition, hlimit]
      exact ⟨hfits, .inr ⟨hentries, hhalt⟩⟩

end Pass

/-! ## Passes in sequence -/

section Sequence

variable {content : Bytes} {schema : Schema} {path : String} {limit : Option Nat} {offset : Nat}
  {choice : Nat → Limits} {entries : List Entry} {batch : Batch}

theorem Follows.settled {reader after : Reader} (h : Follows content schema reader after)
    (hfits : Fits content reader) (hsettled : Settled content reader) :
    Fits content after ∧ Settled content after := by
  induction h with
  | refl => exact ⟨hfits, hsettled⟩
  | pass limits _ hconforms ih =>
    obtain ⟨hfits, hsettled⟩ := ih
    exact settled_take hsettled hfits hconforms

/-- A settled reader answers as it should if and only if its cursor is at its position, it is to read nothing,
or it fails. -/
theorem Settled.conforms_iff {reader : Reader} {limits : Limits} (hsettled : Settled content reader)
    (hfits : Fits content reader) :
    Conforms content schema limits reader (take (.file content) schema limits reader).1 ↔
      reader.cursor = reader.position ∨ limits.count = 0 ∨ limits.size = 0 ∨
        ∃ error after, reader.nextFrom (.file content) = (.error error, after) := by
  by_cases hcursor : reader.cursor = reader.position
  case pos => exact ⟨fun _ ↦ .inl hcursor, fun _ ↦ (take_of_cursor hcursor hfits).1⟩
  case neg =>
    obtain ⟨hentries, hhalt⟩ := hsettled.resolve_left hcursor
    have hnothing : limits.Reached schema [] ↔ limits.count = 0 ∨ limits.size = 0 :=
      or_congr Nat.le_zero Nat.le_zero
    rw [conforms_iff_of_damage hentries hhalt, or_iff_right hcursor, hnothing, or_assoc]

theorem conforms_start (schema : Schema) (limits : Limits)
    (hfits : Fits content (Reader.start path offset limit)) :
    Conforms content schema limits (Reader.start path offset limit)
      (take (.file content) schema limits (Reader.start path offset limit)).1 :=
  (take_of_cursor rfl hfits).1

theorem Covers.chain {limits : Limits}
    (h : Covers content schema limits (Reader.start path offset limit) batch) :
    Chain ((Reader.start path offset limit).visible content) (Reader.start path offset limit).position
      (Reader.start path batch.stop limit).position
      ((upcoming content (Reader.start path offset limit)).entries.take batch.read) :=
  h.stop

/-- A reader that is opened where a batch ended has what is left ahead. -/
theorem Covers.behind {limits : Limits}
    (h : Covers content schema limits (Reader.start path offset limit) batch) :
    (upcoming content (Reader.start path offset limit)).entries =
      (upcoming content (Reader.start path offset limit)).entries.take batch.read ++
        (upcoming content (Reader.start path batch.stop limit)).entries ∧
      (upcoming content (Reader.start path offset limit)).halt =
        (upcoming content (Reader.start path batch.stop limit)).halt :=
  upcoming_of_chain h.chain rfl

theorem Covers.fits {limits : Limits}
    (h : Covers content schema limits (Reader.start path offset limit) batch)
    (hfits : Fits content (Reader.start path offset limit)) :
    Fits content (Reader.start path batch.stop limit) :=
  hfits.of_chain h.chain

/-- What is shipped is what the filter leaves of all that is ahead. -/
theorem Rereads.eq_kept (h : Rereads content schema path limit choice offset entries)
    (hfits : Fits content (Reader.start path offset limit)) :
    entries = kept schema (upcoming content (Reader.start path offset limit)).entries := by
  induction h with
  | @ended choice offset batch h hended =>
    have hconforms := conforms_start schema (choice 0) hfits
    rw [h] at hconforms
    obtain ⟨hcovers, -⟩ := hconforms
    have hall := hcovers.least.1.resolve_left (hcovers.exhausted.mp hended).1
    rw [hcovers.entries, hall, List.take_length]
  | @failed choice offset error h =>
    have hconforms := conforms_start schema (choice 0) hfits
    rw [h] at hconforms
    rw [hconforms.1]
    rfl
  | @again choice offset batch entries h _ _ ih =>
    have hconforms := conforms_start schema (choice 0) hfits
    rw [h] at hconforms
    obtain ⟨hcovers, -⟩ := hconforms
    calc batch.entries ++ entries
        = kept schema ((upcoming content (Reader.start path offset limit)).entries.take batch.read) ++
            kept schema (upcoming content (Reader.start path batch.stop limit)).entries := by
          rw [hcovers.entries, ih (hcovers.fits hfits)]
      _ = kept schema (upcoming content (Reader.start path offset limit)).entries := by
          rw [← kept_append, ← hcovers.behind.1]

/-- With limits that admit an entry, a batch that is not the last one has read an entry. -/
theorem read_pos {limits : Limits} {reader : Reader} (hcount : 0 < limits.count) (hsize : 0 < limits.size)
    (hconforms : Conforms content schema limits reader (.ok batch)) (hmore : batch.exhausted = false) :
    0 < batch.read := by
  obtain ⟨hcovers, hunblocked⟩ := hconforms
  have hadmitted : ¬limits.Reached schema [] :=
    not_or.mpr ⟨Nat.not_le.mpr hcount, Nat.not_le.mpr hsize⟩
  refine Nat.pos_of_ne_zero fun hnone ↦ ?_
  have hleast : limits.Reached schema ((upcoming content reader).entries.take batch.read) ∨
    batch.read = (upcoming content reader).entries.length := hcovers.least.1
  have hexhausted := hcovers.exhausted
  rw [hnone, List.take_zero] at hleast hexhausted
  have hentries := List.length_eq_zero_iff.mp (hleast.resolve_left hadmitted).symm
  by_cases hhalt : (upcoming content reader).halt = .incomplete
  case pos =>
    rw [hexhausted.mpr ⟨hadmitted, hhalt⟩] at hmore
    cases hmore
  case neg => exact hunblocked ⟨hentries, hhalt, hadmitted⟩

/-- Passes come to the end or fail at last. The induction is on the entries that are ahead. -/
theorem exists_rereads (hchoice : ∀ turn, 0 < (choice turn).count ∧ 0 < (choice turn).size)
    (hfits : Fits content (Reader.start path offset limit)) :
    ∃ entries, Rereads content schema path limit choice offset entries := by
  induction hlength : (upcoming content (Reader.start path offset limit)).entries.length
    using Nat.strongRecOn generalizing choice offset with
  | ind length ih =>
    have hconforms := conforms_start schema (choice 0) hfits
    cases htake : (take (.file content) schema (choice 0) (Reader.start path offset limit)).1 with
    | error error => exact ⟨_, .failed htake⟩
    | ok batch =>
      rw [htake] at hconforms
      cases hexhausted : batch.exhausted with
      | true => exact ⟨_, .ended htake hexhausted⟩
      | false =>
        have hread := read_pos (hchoice 0).1 (hchoice 0).2 hconforms hexhausted
        have hwithin := hconforms.1.least.2 (.inr rfl)
        have hless : (upcoming content (Reader.start path batch.stop limit)).entries.length < length := by
          have hbehind := congrArg List.length hconforms.1.behind.1
          rw [List.length_append, List.length_take, Nat.min_eq_left hwithin] at hbehind
          omega
        obtain ⟨entries, hrest⟩ :=
          ih _ hless (fun turn ↦ hchoice (turn + 1)) (hconforms.1.fits hfits) rfl
        exact ⟨_, .again htake hexhausted hrest⟩

/-- A reader that was opened and has answered before as decoding the octets ahead makes it is settled, and
answers so again if and only if its cursor is at its position, nothing is to be read, or the call fails. And with
limits that admit an entry, chosen anew for each pass, re-opening the file where a pass ended ships what the
filter leaves of the file, in order and once. -/
theorem conforms_iff_and_rereads_iff (schema : Schema) (path : String) (limit : Option Nat)
    (hfits : max offset content.length + Reader.block ≤ Reader.maxOffset) :
    (∀ reader, Follows content schema (Reader.start path offset limit) reader →
      Settled content reader ∧ ∀ limits,
        (Conforms content schema limits reader (take (.file content) schema limits reader).1 ↔
          reader.cursor = reader.position ∨ limits.count = 0 ∨ limits.size = 0 ∨
            ∃ error after, reader.nextFrom (.file content) = (.error error, after))) ∧
    (∀ choice : Nat → Limits, (∀ turn, 0 < (choice turn).count ∧ 0 < (choice turn).size) →
      ∀ entries, Rereads content schema path limit choice offset entries ↔
        entries = kept schema (upcoming content (Reader.start path offset limit)).entries) := by
  have hfits : Fits content (Reader.start path offset limit) := hfits
  constructor
  case left =>
    intro reader hfollows
    obtain ⟨hfits, hsettled⟩ := hfollows.settled hfits (.inl rfl)
    exact ⟨hsettled, fun limits ↦ hsettled.conforms_iff hfits⟩
  case right =>
    intro choice hchoice entries
    refine ⟨fun h ↦ h.eq_kept hfits, ?_⟩
    rintro rfl
    obtain ⟨entries, h⟩ : ∃ entries, Rereads content schema path limit choice offset entries :=
      exists_rereads hchoice hfits
    rw [← h.eq_kept hfits]
    exact h

/-- Three records, the second of which does not have its checksum. -/
def damagedSecond : Bytes := putEntry.encode ++ (putEntry.encode.flip 4 1 ++ putEntry.encode)

theorem putEntry_payload_le : putEntry.payload.length ≤ Frame.maxPayload := by decide +kernel

theorem decode_damaged :
    ∃ fault, Frame.decode (putEntry.encode.flip 4 1 ++ putEntry.encode) = .corrupt fault :=
  Frame.decode_flip_encode putEntry_payload_le (Nat.le_refl 4) (by decide +kernel) (by decide) putEntry.encode

theorem upcoming_damagedSecond :
    (upcoming damagedSecond (Reader.start "a.wal" 0 none)).entries = [putEntry] := by
  obtain ⟨fault, hfault⟩ := decode_damaged
  have hframe : Frame.decode damagedSecond = .complete putEntry.payload putEntry.encode.length :=
    Frame.decode_encode_append putEntry_payload_le _
  rw [upcoming, Reader.ahead_start, decoding_of_record hframe putEntry.decode_payload, damagedSecond,
    List.drop_left, decoding_of_corrupt hfault]
  rfl

theorem conforms_iff_and_rereads_iff_damaged :
    Conforms damagedSecond (.ofNames ["f"]) ⟨1000, 10⟩ (Reader.start "a.wal" 0 none)
      (take (.file damagedSecond) (.ofNames ["f"]) ⟨1000, 10⟩ (Reader.start "a.wal" 0 none)).1 ∧
    Rereads damagedSecond (.ofNames ["f"]) "a.wal" none (fun _ ↦ ⟨1, 1⟩) 0 [putEntry] := by
  obtain ⟨hconforms, hrereads⟩ : _ ∧ _ := conforms_iff_and_rereads_iff (.ofNames ["f"]) "a.wal" none
    (by decide +kernel : max 0 damagedSecond.length + Reader.block ≤ Reader.maxOffset)
  constructor
  case left => exact ((hconforms _ (.refl _)).2 _).mpr (.inl rfl)
  case right =>
    refine (hrereads (fun _ ↦ ⟨1, 1⟩) (fun _ ↦ ⟨Nat.one_pos, Nat.one_pos⟩) _).mpr ?_
    rw [upcoming_damagedSecond]
    decide +kernel

/-- The first pass leaves the cursor behind the damaged record, and the position in front of it. -/
theorem take_damagedSecond :
    (take (.file damagedSecond) (.ofNames ["f"]) ⟨1000, 10⟩ (Reader.start "a.wal" 0 none)).2 =
      ⟨"a.wal", 300, 150, none, false⟩ := by
  obtain ⟨fault, hfault⟩ := decode_damaged
  have hlength : putEntry.encode.length = 150 := by decide +kernel
  have hfirst : (Reader.start "a.wal" 0 none).nextFrom (.file damagedSecond) =
      (.ok (some putEntry), ⟨"a.wal", 150, 150, none, false⟩) := by
    rw [Reader.nextFrom_file (by decide), Reader.next_of_written rfl putEntry_payload_le rfl, hlength]
    rfl
  have hahead : (⟨"a.wal", 150, 150, none, false⟩ : Reader).ahead damagedSecond =
      putEntry.encode.flip 4 1 ++ putEntry.encode := by
    rw [Reader.ahead, damagedSecond, ← hlength]
    exact List.drop_left
  have hpayload : Frame.payloadLength (putEntry.encode.flip 4 1 ++ putEntry.encode) = 142 := by decide +kernel
  have hsecond : (⟨"a.wal", 150, 150, none, false⟩ : Reader).nextFrom (.file damagedSecond) =
      (.error (Reader.corrupt ⟨"a.wal", 150, 150, none, false⟩ fault.message),
        ⟨"a.wal", 300, 150, none, false⟩) := by
    rw [Reader.nextFrom_file (by decide),
      Reader.next_behind_corrupt rfl (by rw [hahead, hpayload]; decide) (hahead ▸ hfault), hahead, hpayload]
    rfl
  have hgather : gather (.file damagedSecond) (.ofNames ["f"]) ⟨1000, 10⟩ 10
      (gathered (.ofNames ["f"]) 0 []) (Reader.start "a.wal" 0 none) =
        (.ok (gathered (.ofNames ["f"]) 0 [putEntry]), ⟨"a.wal", 300, 150, none, false⟩) := by
    rw [gather, if_neg (by decide), hfirst]
    dsimp only
    rw [gathered_add, gather, if_neg (by decide +kernel), hsecond]
    exact if_pos Nat.one_pos
  rw [take_eq hgather]

/-- A reader whose first pass ended in front of the damaged record goes on behind it. -/
theorem not_conforms_behind_damage :
    ∃ reader, (take (.file damagedSecond) (.ofNames ["f"]) ⟨1000, 10⟩ (Reader.start "a.wal" 0 none)).2 = reader ∧
      Follows damagedSecond (.ofNames ["f"]) (Reader.start "a.wal" 0 none) reader ∧
      (reader.nextFrom (.file damagedSecond)).1 = .ok (some putEntry) ∧
      ¬Conforms damagedSecond (.ofNames ["f"]) ⟨1000, 10⟩ reader
        (take (.file damagedSecond) (.ofNames ["f"]) ⟨1000, 10⟩ reader).1 := by
  have hfits : Fits damagedSecond (Reader.start "a.wal" 0 none) := by
    rw [Fits]
    decide +kernel
  have hfollows : Follows damagedSecond (.ofNames ["f"]) (Reader.start "a.wal" 0 none)
      (take (.file damagedSecond) (.ofNames ["f"]) ⟨1000, 10⟩ (Reader.start "a.wal" 0 none)).2 :=
    .pass _ (.refl _) (conforms_start _ _ hfits)
  rw [take_damagedSecond] at hfollows
  have hnext : ((⟨"a.wal", 300, 150, none, false⟩ : Reader).nextFrom (.file damagedSecond)).1 =
      .ok (some putEntry) := by
    have hlength : 300 = (putEntry.encode ++ putEntry.encode.flip 4 1).length := by decide +kernel
    have hrest : damagedSecond.drop 300 = putEntry.encode ++ [] := by
      rw [damagedSecond, ← List.append_assoc, hlength, List.drop_left, List.append_nil]
    rw [Reader.nextFrom_file (by decide)]
    exact Reader.next_at_cursor rfl putEntry_payload_le hrest
  obtain ⟨hfits, hsettled⟩ := hfollows.settled hfits (.inl rfl)
  refine ⟨_, take_damagedSecond, hfollows, hnext, fun hconforms ↦ ?_⟩
  rcases (hsettled.conforms_iff hfits).mp hconforms with hcursor | hcount | hsize | ⟨error, after, herror⟩
  · exact absurd hcursor (by decide)
  · exact absurd hcount (by decide)
  · exact absurd hsize (by decide)
  · rw [herror] at hnext
    cases hnext

end Sequence

end Batch

end LogShipping
