import Mathlib.Tactic.MkIffOfInductiveProp
import LogShipping.Proofs.Log.Runs

/-!
# Reading through a buffer

A file is read ahead. A read of less than a block fetches a block, and what was not asked for is kept for the
next reads; a read of a block or more goes past an empty buffer; and seeking gives the buffer up. The system may
grant fewer octets than a read asks for, so a reader repeats its reads until it has what it wants or nothing is
granted any more.

A log file only grows, so what is in the buffer stays what the file holds behind the cursor. A reader through a
buffer therefore answers what the same reader answers without one, however much each read is granted and
whatever was written since the buffer was filled.
-/

namespace LogShipping.Log

/-- How many of the octets that are asked for at an offset the system grants. -/
structure Supply where
  grant : (content : Bytes) → (offset asked : Nat) → Nat
  grant_pos : ∀ content offset asked, 0 < asked → 0 < grant content offset asked

namespace Supply

/-- One read of the system. -/
def read (supply : Supply) (content : Bytes) (offset asked : Nat) : Bytes :=
  (content.drop offset).take (min (supply.grant content offset asked) asked)

/-- One read through a buffer: the octets, and the buffer behind them. -/
def fetch (supply : Supply) (content : Bytes) (offset : Nat) (buffer : Bytes) (want : Nat) : Bytes × Bytes :=
  if buffer.isEmpty then
    if Reader.block ≤ want then (supply.read content offset want, [])
    else
      let fetched := supply.read content offset Reader.block
      (fetched.take want, fetched.drop want)
  else (buffer.take want, buffer.drop want)

/-- Reads through a buffer up to a number of octets, or to the end of the file. -/
def fill (supply : Supply) (content : Bytes) (offset : Nat) (buffer : Bytes) (want : Nat) : Bytes × Bytes :=
  if want = 0 then ([], buffer)
  else
    match supply.fetch content offset buffer want with
    | ([], buffer) => ([], buffer)
    | (octet :: octets, buffer) =>
      let more := supply.fill content (offset + (octets.length + 1)) buffer (want - (octets.length + 1))
      (octet :: octets ++ more.1, more.2)
termination_by want

variable (supply : Supply) {content buffer : Bytes} {offset want : Nat}

theorem read_prefix (content : Bytes) (offset asked : Nat) :
    supply.read content offset asked <+: content.drop offset := List.take_prefix ..

/-- Something is granted, if there is something to read. -/
theorem read_eq_nil {asked : Nat} (hasked : 0 < asked) (h : supply.read content offset asked = []) :
    content.drop offset = [] := by
  have hgrant := supply.grant_pos content offset asked hasked
  exact (List.take_eq_nil_iff.mp h).resolve_left (by omega)

theorem length_read_le (content : Bytes) (offset asked : Nat) :
    (supply.read content offset asked).length ≤ asked := by
  rw [read, List.length_take]
  omega

/-- A read answers the front of what the file holds, leaves in the buffer what follows, and answers nothing at
the end of the file only. -/
theorem fetch_spec (hbuffer : buffer <+: content.drop offset) (hwant : 0 < want) :
    (supply.fetch content offset buffer want).1 ++ (supply.fetch content offset buffer want).2 <+:
        content.drop offset ∧
      (supply.fetch content offset buffer want).1.length ≤ want ∧
      ((supply.fetch content offset buffer want).1 = [] → content.drop offset = []) := by
  have hsplit {bytes : Bytes} (hbytes : bytes <+: content.drop offset)
      (hnil : bytes = [] → content.drop offset = []) :
      bytes.take want ++ bytes.drop want <+: content.drop offset ∧ (bytes.take want).length ≤ want ∧
        (bytes.take want = [] → content.drop offset = []) := by
    refine ⟨by rwa [List.take_append_drop], List.length_take_le .., fun h ↦ hnil ?_⟩
    exact (List.take_eq_nil_iff.mp h).resolve_left (Nat.ne_of_gt hwant)
  unfold fetch
  by_cases hempty : buffer.isEmpty = true
  case pos =>
    rw [if_pos hempty]
    by_cases hlarge : Reader.block ≤ want
    case pos =>
      rw [if_pos hlarge, List.append_nil]
      exact ⟨supply.read_prefix .., supply.length_read_le .., supply.read_eq_nil hwant⟩
    case neg =>
      rw [if_neg hlarge]
      exact hsplit (supply.read_prefix ..) (supply.read_eq_nil (by decide))
  case neg =>
    rw [if_neg hempty]
    exact hsplit hbuffer fun hnil ↦ absurd (List.isEmpty_iff.mpr hnil) hempty

/-- Reads through a buffer answer what the file holds at the offset, and the buffer behind them is what it holds
there. -/
theorem fill_spec (want : Nat) (hbuffer : buffer <+: content.drop offset) :
    (supply.fill content offset buffer want).1 = (content.drop offset).take want ∧
      (supply.fill content offset buffer want).2 <+:
        content.drop (offset + (supply.fill content offset buffer want).1.length) := by
  induction want using Nat.strongRecOn generalizing offset buffer with
  | ind want ih =>
    rw [fill]
    by_cases hwant : want = 0
    case pos =>
      rw [if_pos hwant, hwant]
      exact ⟨rfl, hbuffer⟩
    case neg =>
      obtain ⟨hfront, hlength, hnil⟩ := supply.fetch_spec hbuffer (Nat.pos_of_ne_zero hwant)
      rw [if_neg hwant]
      rcases hgot : supply.fetch content offset buffer want with ⟨_ | ⟨octet, octets⟩, left⟩
      case nil =>
        rw [hgot] at hfront hnil
        exact ⟨by rw [hnil rfl, List.take_nil], hfront⟩
      case cons =>
        rw [hgot] at hfront hlength
        obtain ⟨more, hmore⟩ := hfront
        dsimp only at hmore hlength ⊢
        have hbehind : content.drop (offset + (octets.length + 1)) = left ++ more := by
          rw [← List.drop_drop, ← hmore, List.append_assoc, ← List.length_cons, List.drop_left]
        obtain ⟨hrest, hleft⟩ := @ih (want - (octets.length + 1))
          (Nat.sub_lt (Nat.pos_of_ne_zero hwant) (Nat.succ_pos _)) left
          (offset + (octets.length + 1)) (hbehind ▸ List.prefix_append ..)
        constructor
        case left =>
          have htake : (octet :: octets ++ (left ++ more)).take want =
              octet :: octets ++ (left ++ more).take (want - (octets.length + 1)) := by
            rw [List.take_append, List.take_of_length_le hlength, List.length_cons]
          rw [hrest, hbehind, ← hmore, List.append_assoc, htake]
        case right => rwa [List.length_append, List.length_cons, ← Nat.add_assoc offset (octets.length + 1)]

/-- Two parts that are read one after the other are the front of what the file holds. -/
theorem fill_fill (hbuffer : buffer <+: content.drop offset) {first : Nat}
    (hfirst : ((content.drop offset).take first).length = first) (second : Nat) :
    (content.drop offset).take first ++
        (supply.fill content (offset + first) (supply.fill content offset buffer first).2 second).1 =
          (content.drop offset).take (first + second) ∧
      (supply.fill content (offset + first) (supply.fill content offset buffer first).2 second).2 <+:
        content.drop (offset + ((content.drop offset).take (first + second)).length) := by
  obtain ⟨hheader, hleft⟩ := supply.fill_spec first hbuffer
  rw [hheader, hfirst] at hleft
  obtain ⟨hpayload, hbehind⟩ := supply.fill_spec second hleft
  have htake : (content.drop offset).take first ++
      (supply.fill content (offset + first) (supply.fill content offset buffer first).2 second).1 =
        (content.drop offset).take (first + second) := by
    rw [hpayload, List.take_add, List.drop_drop]
  refine ⟨htake, ?_⟩
  rwa [← htake, List.length_append, hfirst, ← Nat.add_assoc]

end Supply

/-- A reader, and what was fetched of the file behind its cursor. -/
structure Buffered where
  reader : Reader
  buffer : Bytes

namespace Buffered

/-- The answer for the octets of one record. In front of a torn one the reader seeks back. -/
def settle (reader : Reader) (frame buffer : Bytes) : Outcome (Option Entry) × Buffered :=
  ((reader.settle frame).1, ⟨(reader.settle frame).2, if Frame.decode frame = .incomplete then [] else buffer⟩)

/-- The next entry of a file that is read through the buffer. -/
def next (supply : Supply) (content : Bytes) (buffered : Buffered) : Outcome (Option Entry) × Buffered :=
  let reader := buffered.reader
  if reader.exceeds Frame.headerSize then (.ok none, buffered)
  else
    let header := supply.fill content reader.cursor buffered.buffer Frame.headerSize
    if header.1.isEmpty then (.ok none, ⟨reader, header.2⟩)
    else if header.1.length < Frame.headerSize then (.ok none, ⟨reader.tear, []⟩)
    else
      let length := Frame.payloadLength header.1
      if Frame.maxPayload < length then settle reader header.1 header.2
      else if reader.exceeds (Frame.headerSize + length) then (.ok none, ⟨reader.rewind, []⟩)
      else
        let payload := supply.fill content (reader.cursor + header.1.length) header.2 length
        settle reader (header.1 ++ payload.1) payload.2

/-- What is in the buffer is what the file holds behind the cursor. -/
def Fresh (content : Bytes) (buffered : Buffered) : Prop :=
  buffered.buffer <+: content.drop buffered.reader.cursor

/-- The answer of a reader through a buffer is that of the reader without it. -/
@[mk_iff]
structure Mirrors (content : Bytes) (reader : Reader) (result : Outcome (Option Entry) × Buffered) : Prop where
  answer : result.1 = (reader.next content).1
  reader : result.2.reader = (reader.next content).2
  fresh : result.2.Fresh content

variable {content : Bytes} {buffered : Buffered}

/-- Nothing that is written to the file makes the buffer stale. -/
theorem Fresh.append (h : buffered.Fresh content) (more : Bytes) : buffered.Fresh (content ++ more) := by
  rw [Fresh, List.drop_append]
  exact h.trans (List.prefix_append ..)

theorem fresh_settle {reader : Reader} {frame buffer : Bytes}
    (h : buffer <+: content.drop (reader.cursor + frame.length)) :
    (settle reader frame buffer).2.Fresh content := by
  unfold settle Fresh Reader.settle
  cases hframe : Frame.decode frame with
  | incomplete => exact List.nil_prefix
  | corrupt fault => simpa using h
  | complete payload consumed => cases hentry : Entry.decode payload <;> simpa [hentry] using h

/-- Behind a whole header the record is read, if the limit admits it. -/
theorem mirrors_of_header (supply : Supply) (h : buffered.Fresh content)
    (hadmitted : ¬buffered.reader.exceeds Frame.headerSize = true)
    (hlength : ((content.drop buffered.reader.cursor).take Frame.headerSize).length = Frame.headerSize) :
    Mirrors content buffered.reader (buffered.next supply content) := by
  obtain ⟨reader, buffer⟩ := buffered
  obtain ⟨hheader, hleft⟩ := supply.fill_spec Frame.headerSize h
  have hempty : ¬((content.drop reader.cursor).take Frame.headerSize).isEmpty = true := by
    rw [List.isEmpty_iff_length_eq_zero, hlength]
    decide
  rw [mirrors_iff, next, Reader.next]
  dsimp only at hheader hleft ⊢
  rw [if_neg hadmitted, if_neg hadmitted, hheader, if_neg hempty, if_neg hempty, hlength,
    if_neg (Nat.lt_irrefl _), if_neg (Nat.lt_irrefl _)]
  by_cases hsize : Frame.maxPayload <
      Frame.payloadLength ((content.drop reader.cursor).take Frame.headerSize)
  case pos =>
    rw [if_pos hsize, if_pos hsize]
    exact ⟨rfl, rfl, fresh_settle (hheader ▸ hleft)⟩
  case neg =>
    rw [if_neg hsize, if_neg hsize]
    by_cases hrecord : reader.exceeds (Frame.headerSize +
        Frame.payloadLength ((content.drop reader.cursor).take Frame.headerSize)) = true
    case pos =>
      rw [if_pos hrecord, if_pos hrecord]
      exact ⟨rfl, rfl, List.nil_prefix⟩
    case neg =>
      obtain ⟨hframe, hbehind⟩ := supply.fill_fill h hlength
        (Frame.payloadLength ((content.drop reader.cursor).take Frame.headerSize))
      rw [if_neg hrecord, if_neg hrecord, hframe]
      exact ⟨rfl, rfl, fresh_settle hbehind⟩

/-- Through a buffer a reader answers the same, and goes on the same. -/
theorem mirrors_next (supply : Supply) (h : buffered.Fresh content) :
    Mirrors content buffered.reader (buffered.next supply content) := by
  by_cases hwhole : ¬buffered.reader.exceeds Frame.headerSize = true ∧
      ((content.drop buffered.reader.cursor).take Frame.headerSize).length = Frame.headerSize
  case pos => exact mirrors_of_header supply h hwhole.1 hwhole.2
  case neg =>
    obtain ⟨reader, buffer⟩ := buffered
    obtain ⟨hheader, hleft⟩ := supply.fill_spec Frame.headerSize h
    rw [mirrors_iff, next, Reader.next]
    dsimp only at hwhole hheader hleft ⊢
    rw [hheader]
    by_cases hlimit : reader.exceeds Frame.headerSize = true
    case pos =>
      rw [if_pos hlimit, if_pos hlimit]
      exact ⟨rfl, rfl, h⟩
    case neg =>
      rw [if_neg hlimit, if_neg hlimit]
      by_cases hempty : ((content.drop reader.cursor).take Frame.headerSize).isEmpty = true
      case pos =>
        rw [hheader, List.isEmpty_iff.mp hempty] at hleft
        rw [if_pos hempty, if_pos hempty]
        exact ⟨rfl, rfl, hleft⟩
      case neg =>
        have hle := List.length_take_le Frame.headerSize (content.drop reader.cursor)
        have hshort : ((content.drop reader.cursor).take Frame.headerSize).length < Frame.headerSize :=
          Nat.lt_of_le_of_ne hle fun hlength ↦ hwhole ⟨hlimit, hlength⟩
        rw [if_neg hempty, if_neg hempty, if_pos hshort, if_pos hshort]
        exact ⟨rfl, rfl, List.nil_prefix⟩

end Buffered

end LogShipping.Log
