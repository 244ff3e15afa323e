import LogShipping.Proofs.Log.Decoding
import LogShipping.Proofs.Log.Reading

/-!
# Chains of records

From an offset on, a file may hold some records, one after the other, before something is met that cannot
be read. Such a chain is determined by its ends, and octets that are written behind it leave it as it is.
Every batch is what the filter leaves of a chain, whatever the file holds and whatever the limits are; and
only in front of a record that is not whole may a pass without a limit come to its end.
-/

namespace LogShipping

namespace Log

/-- Decoding one record after the other leads from one offset to another, past these entries. -/
inductive Chain (content : Bytes) : (start stop : Nat) → List Entry → Prop
  | nil (start : Nat) : Chain content start start []
  | cons {start stop consumed : Nat} {payload : Bytes} {entry : Entry} {entries : List Entry}
      (hframe : Frame.decode (content.drop start) = .complete payload consumed)
      (hentry : Entry.decode payload = .ok entry)
      (rest : Chain content (start + consumed) stop entries) :
      Chain content start stop (entry :: entries)

/-- Decoding from an offset on comes to a record with this entry, at another offset. -/
def Found (content : Bytes) (start offset : Nat) (entry : Entry) : Prop :=
  ∃ before stop, Chain content start offset before ∧ Chain content offset stop [entry]

namespace Chain

variable {content : Bytes} {start middle stop : Nat} {entry : Entry} {xs ys : List Entry}

theorem le (h : Chain content start stop xs) : start ≤ stop := by
  induction h with
  | nil => exact Nat.le_refl _
  | cons _ _ _ ih => exact Nat.le_trans (Nat.le_add_right _ _) ih

theorem singleton {payload : Bytes} {consumed : Nat}
    (hframe : Frame.decode (content.drop start) = .complete payload consumed)
    (hentry : Entry.decode payload = .ok entry) : Chain content start (start + consumed) [entry] :=
  .cons hframe hentry (.nil _)

theorem append (hx : Chain content start middle xs) (hy : Chain content middle stop ys) :
    Chain content start stop (xs ++ ys) := by
  induction hx with
  | nil => exact hy
  | cons hframe hentry _ ih => exact .cons hframe hentry (ih hy)

/-- What is written behind a chain leaves it as it is. -/
theorem append_right (h : Chain content start stop xs) (more : Bytes) :
    Chain (content ++ more) start stop xs := by
  induction h with
  | nil start => exact .nil start
  | cons hframe hentry _ ih =>
    refine .cons ?_ hentry ih
    rw [Frame.decode_drop_append (Frame.told_of_complete hframe), hframe]

/-- In front of the end of a chain it was the same before more was written behind. -/
theorem of_append {more : Bytes} (h : Chain content start stop xs)
    (hmiddle : Chain (content ++ more) start middle ys) (hle : middle ≤ stop) :
    Chain content start middle ys := by
  induction h generalizing ys with
  | nil start =>
    cases hmiddle with
    | nil => exact .nil _
    | cons hframe _ rest =>
      have hlater := (Frame.consumed_of_decode hframe).1
      have hbehind := rest.le
      rw [Frame.headerSize] at hlater
      omega
  | cons hframe hentry _ ih =>
    have hfirst := Frame.decode_drop_append (Frame.told_of_complete hframe) more
    rw [hframe] at hfirst
    cases hmiddle with
    | nil => exact .nil _
    | cons hframe' hentry' rest =>
      cases hfirst.symm.trans hframe'
      cases hentry.symm.trans hentry'
      exact .cons hframe hentry (ih rest hle)

/-- A chain that goes further goes on from where another one from the same offset ends. -/
theorem split (hx : Chain content start middle xs) (hy : Chain content start stop ys)
    (hle : middle ≤ stop) : ∃ zs, Chain content middle stop zs ∧ ys = xs ++ zs := by
  induction hx generalizing ys with
  | nil => exact ⟨ys, hy, rfl⟩
  | @cons start _ consumed _ _ _ hframe hentry rest ih =>
    have hbehind := rest.le
    have hlater := (Frame.consumed_of_decode hframe).1
    rw [Frame.headerSize] at hlater
    cases hy with
    | nil => omega
    | cons hframe' hentry' rest' =>
      cases hframe.symm.trans hframe'
      cases hentry.symm.trans hentry'
      obtain ⟨zs, hzs, rfl⟩ := ih rest' hle
      exact ⟨zs, hzs, rfl⟩

/-- Behind the offset where a chain that is longer goes on, there is a record. -/
theorem exists_of_lt (h : Chain content start stop xs) (hlt : start < stop) :
    ∃ payload consumed entry, Frame.decode (content.drop start) = .complete payload consumed ∧
      Entry.decode payload = .ok entry := by
  cases h with
  | nil => exact absurd hlt (Nat.lt_irrefl _)
  | cons hframe hentry _ => exact ⟨_, _, _, hframe, hentry⟩

/-- No chain goes beyond an offset at which no whole record was found. -/
theorem le_of_incomplete {other : Nat} (h : Chain content start stop xs)
    (hend : Frame.decode (content.drop stop) = .incomplete) (hother : Chain content start other ys) :
    other ≤ stop := by
  refine Nat.not_lt.mp fun hlt ↦ ?_
  obtain ⟨rest, hrest, -⟩ := h.split hother (Nat.le_of_lt hlt)
  obtain ⟨payload, consumed, entry, hframe, -⟩ := hrest.exists_of_lt hlt
  cases hend.symm.trans hframe

end Chain

namespace Found

variable {content : Bytes} {start stop offset : Nat} {entry : Entry} {xs : List Entry}

theorem append_right (h : Found content start offset entry) (more : Bytes) :
    Found (content ++ more) start offset entry := by
  obtain ⟨before, behind, hbefore, hrecord⟩ := h
  exact ⟨before, behind, hbefore.append_right more, hrecord.append_right more⟩

/-- A record within a chain is one of its entries. -/
theorem mem (h : Found content start offset entry) (hchain : Chain content start stop xs)
    (hlt : offset < stop) : entry ∈ xs := by
  obtain ⟨before, behind, hbefore, hrecord⟩ := h
  obtain ⟨rest, hrest, rfl⟩ := hbefore.split hchain (Nat.le_of_lt hlt)
  refine List.mem_append_right _ ?_
  cases hrest with
  | nil => exact absurd hlt (Nat.lt_irrefl _)
  | cons hframe hentry _ =>
    cases hrecord with
    | cons hframe' hentry' _ =>
      cases hframe.symm.trans hframe'
      cases hentry.symm.trans hentry'
      exact List.mem_cons_self

/-- Behind a chain a record is found from the chain's end on. -/
theorem of_chain (h : Found content start offset entry) (hchain : Chain content start stop xs)
    (hle : stop ≤ offset) : Found content stop offset entry := by
  obtain ⟨before, behind, hbefore, hrecord⟩ := h
  obtain ⟨rest, hrest, -⟩ := hchain.split hbefore hle
  exact ⟨rest, behind, hrest, hrecord⟩

/-- A record in front of the end of a chain was there before more was written behind. -/
theorem of_append {more : Bytes} (hchain : Chain content start stop xs) (hlt : offset < stop)
    (h : Found (content ++ more) start offset entry) : Found content start offset entry := by
  induction hchain with
  | nil start =>
    obtain ⟨before, -, hbefore, -⟩ := h
    exact absurd hlt (Nat.not_lt.mpr hbefore.le)
  | @cons start stop consumed payload first _ hframe hentry rest ih =>
    obtain ⟨before, behind, hbefore, hrecord⟩ := h
    have hfirst := Frame.decode_drop_append (Frame.told_of_complete hframe) more
    rw [hframe] at hfirst
    cases hbefore with
    | nil =>
      cases hrecord with
      | cons hframe' hentry' _ =>
        cases hfirst.symm.trans hframe'
        cases hentry.symm.trans hentry'
        exact ⟨[], _, .nil offset, .singleton hframe hentry⟩
    | cons hframe' hentry' hlater =>
      cases hfirst.symm.trans hframe'
      obtain ⟨between, _, hbetween, hthere⟩ := ih hlt ⟨_, behind, hlater, hrecord⟩
      exact ⟨first :: between, _, .cons hframe hentry hbetween, hthere⟩

end Found

/-! ## Decoding and chains -/

/-- What is decoded is a chain. -/
theorem chain_decoding (content : Bytes) (start : Nat) :
    Chain content start (start + (decoding (content.drop start)).consumed)
      (decoding (content.drop start)).entries := by
  induction hbytes : content.drop start using decoding.induct generalizing start with
  | case1 bytes hframe =>
    rw [decoding_of_incomplete hframe]
    exact .nil start
  | case2 bytes fault hframe =>
    rw [decoding_of_corrupt hframe]
    exact .nil start
  | case3 bytes payload consumed hframe error hentry =>
    rw [decoding_of_illegible hframe hentry]
    exact .nil start
  | case4 bytes payload consumed hframe entry hentry ih =>
    have hchain := ih (start + consumed) (by rw [← List.drop_drop, hbytes])
    rw [decoding_of_record hframe hentry, Decoding.behind, ← Nat.add_assoc]
    exact .cons (hbytes ▸ hframe) hentry hchain

/-- Reading from one offset on comes to another one, where something is that cannot be read and will not be
readable, whatever follows. -/
structure Damaged (content : Bytes) (start damage : Nat) : Prop where
  chain : ∃ before, Chain content start damage before
  told : Frame.decode (content.drop damage) ≠ .incomplete
  illegible : ∀ payload consumed entry, Frame.decode (content.drop damage) = .complete payload consumed →
    Entry.decode payload ≠ .ok entry

/-- Where decoding stops otherwise than in front of what is not whole, nothing can be read. -/
theorem stop_of_decoding {bytes : Bytes} (h : (decoding bytes).halt ≠ .incomplete) :
    Frame.decode (bytes.drop (decoding bytes).consumed) ≠ .incomplete ∧
      ∀ payload consumed entry,
        Frame.decode (bytes.drop (decoding bytes).consumed) = .complete payload consumed →
          Entry.decode payload ≠ .ok entry := by
  induction bytes using decoding.induct with
  | case1 bytes hframe =>
    rw [decoding_of_incomplete hframe] at h
    exact absurd rfl h
  | case2 bytes fault hframe =>
    rw [decoding_of_corrupt hframe, List.drop_zero, hframe]
    constructor
    case left => intro hincomplete; cases hincomplete
    case right => intro payload consumed entry hcomplete; cases hcomplete
  | case3 bytes payload consumed hframe error hentry =>
    rw [decoding_of_illegible hframe hentry, List.drop_zero]
    refine ⟨Frame.told_of_complete hframe, fun payload consumed entry hcomplete hok ↦ ?_⟩
    cases hframe.symm.trans hcomplete
    cases hentry.symm.trans hok
  | case4 bytes payload consumed hframe entry hentry ih =>
    rw [decoding_of_record hframe hentry, Decoding.behind] at h ⊢
    rw [← List.drop_drop]
    exact ih h

theorem damaged_of_decoding {content : Bytes} {start : Nat}
    (h : (decoding (content.drop start)).halt ≠ .incomplete) :
    Damaged content start (start + (decoding (content.drop start)).consumed) := by
  obtain ⟨htold, hillegible⟩ := stop_of_decoding h
  rw [List.drop_drop] at htold hillegible
  exact ⟨⟨_, chain_decoding content start⟩, htold, hillegible⟩

namespace Damaged

variable {content : Bytes} {start damage stop : Nat} {entries : List Entry}

theorem append_right (h : Damaged content start damage) (more : Bytes) :
    Damaged (content ++ more) start damage := by
  obtain ⟨⟨before, hbefore⟩, htold, hillegible⟩ := h
  have hsame := Frame.decode_drop_append htold more
  exact ⟨⟨before, hbefore.append_right more⟩, hsame ▸ htold, hsame ▸ hillegible⟩

/-- No chain goes further. -/
theorem le (h : Damaged content start damage) (hchain : Chain content start stop entries) :
    stop ≤ damage := by
  obtain ⟨⟨before, hbefore⟩, -, hillegible⟩ := h
  refine Nat.not_lt.mp fun hlt ↦ ?_
  obtain ⟨rest, hrest, -⟩ := hbefore.split hchain (Nat.le_of_lt hlt)
  obtain ⟨payload, consumed, entry, hframe, hentry⟩ := hrest.exists_of_lt hlt
  exact hillegible payload consumed entry hframe hentry

/-- Nowhere on the way reading comes to an end that may be a whole record later. -/
theorem not_incomplete (h : Damaged content start damage) (hchain : Chain content start stop entries) :
    Frame.decode (content.drop stop) ≠ .incomplete := by
  obtain ⟨before, hbefore⟩ := h.chain
  rcases Nat.eq_or_lt_of_le (h.le hchain) with rfl | hlt
  · exact h.told
  · obtain ⟨rest, hrest, -⟩ := hchain.split hbefore (Nat.le_of_lt hlt)
    obtain ⟨payload, consumed, entry, hframe, -⟩ := hrest.exists_of_lt hlt
    exact Frame.told_of_complete hframe

end Damaged

end Log

/-! ## Batches -/

namespace Log.Reader

variable {content : Bytes} {reader : Reader}

/-- What is ahead is the front of what the file holds from the position on. -/
theorem ahead_append (content : Bytes) (reader : Reader) :
    ∃ more, reader.ahead content ++ more = content.drop reader.position ∧
      (reader.limit = none → more = []) := by
  unfold ahead
  cases reader.limit with
  | none => exact ⟨[], List.append_nil _, fun _ ↦ rfl⟩
  | some limit =>
    refine ⟨(content.drop reader.position).drop (limit - reader.position), ?_, nofun⟩
    rw [Option.elim_some, List.drop_take, List.take_append_drop]

/-- A call answers a record of the file, none in front of what the reader may not read to its end, or an
error. -/
theorem nextFrom_cases (hcursor : reader.cursor = reader.position) :
    (∃ error after, reader.nextFrom (.file content) = (.error error, after) ∧
      after.position = reader.position) ∨
    (∃ after, reader.nextFrom (.file content) = (.ok none, after) ∧ after.position = reader.position ∧
      (reader.limit = none → Frame.decode (content.drop reader.position) = .incomplete)) ∨
    (∃ entry consumed, reader.nextFrom (.file content) = (.ok (some entry), reader.pass consumed) ∧
      Chain content reader.position (reader.position + consumed) [entry]) := by
  obtain ⟨more, hmore, hall⟩ := ahead_append content reader
  unfold nextFrom
  split
  case isTrue hlimit =>
    exact .inr (.inl ⟨reader, rfl, rfl, fun hnone ↦ absurd hnone (limit_ne_none_of_exceeds hlimit)⟩)
  case isFalse =>
    dsimp only
    split
    case isTrue => exact .inl ⟨_, reader, rfl, rfl⟩
    case isFalse =>
      cases hframe : Frame.decode (reader.ahead content) with
      | incomplete =>
        refine .inr (.inl ⟨_, next_of_incomplete hcursor hframe, rfl, fun hnone ↦ ?_⟩)
        rw [← hmore, hall hnone, List.append_nil, hframe]
      | corrupt fault =>
        obtain ⟨cursor, hnext⟩ := next_of_corrupt hcursor hframe
        exact .inl ⟨_, _, hnext, rfl⟩
      | complete payload consumed =>
        have hnext := next_of_complete hcursor hframe
        have hthere : Frame.decode (content.drop reader.position) = .complete payload consumed := by
          rw [← hmore, Frame.decode_append (Frame.told_of_complete hframe), hframe]
        cases hentry : Entry.decode payload with
        | error error =>
          rw [hentry] at hnext
          exact .inl ⟨_, _, hnext, rfl⟩
        | ok entry =>
          rw [hentry] at hnext
          exact .inr (.inr ⟨entry, consumed, hnext, .singleton hthere hentry⟩)

end Log.Reader

namespace Batch

open Log

variable {content : Bytes} {schema : Schema} {limits : Limits}

/-- A pass goes along a chain from the reader's position on, and keeps what the filter leaves of it. -/
theorem gather_chain (turns : Nat) {batch result : Batch} {reader after : Reader}
    (hcursor : reader.cursor = reader.position)
    (h : gather (.file content) schema limits turns batch reader = (.ok result, after)) :
    ∃ read, Chain content reader.position after.position read ∧
      result.entries = batch.entries ++ read.filterMap (Entry.filter schema) ∧
      result.start = batch.start ∧
      (reader.limit = none → result.exhausted = true →
        batch.exhausted = true ∨ Frame.decode (content.drop after.position) = .incomplete) := by
  -- A pass that ends here has gone no further.
  have hended : ∃ read, Chain content reader.position reader.position read ∧
      batch.entries = batch.entries ++ read.filterMap (Entry.filter schema) ∧
      batch.start = batch.start ∧
      (reader.limit = none → batch.exhausted = true →
        batch.exhausted = true ∨ Frame.decode (content.drop reader.position) = .incomplete) :=
    ⟨[], .nil _, (List.append_nil _).symm, rfl, fun _ ↦ .inl⟩
  induction turns generalizing batch reader with
  | zero =>
    rw [gather] at h
    cases h
    exact hended
  | succ turns ih =>
    rw [gather] at h
    split at h
    case isTrue =>
      cases h
      exact hended
    case isFalse =>
      rcases Reader.nextFrom_cases hcursor with
        ⟨error, failed, hnext, hposition⟩ | ⟨stopped, hnext, hposition, hwhole⟩ |
        ⟨entry, consumed, hnext, hrecord⟩
      · rw [hnext] at h
        dsimp only at h
        split at h
        case isTrue =>
          cases h
          rw [hposition]
          exact hended
        case isFalse => cases h
      · rw [hnext] at h
        cases h
        rw [hposition]
        exact ⟨[], .nil _, (List.append_nil _).symm, rfl, fun hnone _ ↦ .inr (hwhole hnone)⟩
      · rw [hnext] at h
        obtain ⟨read, hread, hentries, hstart, hexhausted⟩ := ih rfl h
          ⟨[], .nil _, (List.append_nil _).symm, rfl, fun _ ↦ .inl⟩
        refine ⟨[entry] ++ read, hrecord.append hread, ?_, ?_, ?_⟩
        · rw [hentries, add_entries, List.append_assoc, List.filterMap_append]
        · rw [hstart, add_start]
        · intro hnone hdone
          rw [← add_exhausted batch (entry.filter schema)]
          exact hexhausted hnone hdone

/-- A batch is what the filter leaves of a chain from the reader's position on. If no limit bounds the
reader and the pass came to its end, what follows is no whole record. -/
theorem take_chain {batch : Batch} {reader : Reader} (hcursor : reader.cursor = reader.position)
    (h : (take (.file content) schema limits reader).1 = .ok batch) :
    batch.start = reader.position ∧
      ∃ read, Chain content batch.start batch.stop read ∧
        batch.entries = read.filterMap (Entry.filter schema) ∧
        (reader.limit = none → batch.exhausted = true →
          Frame.decode (content.drop batch.stop) = .incomplete) := by
  unfold take at h
  dsimp only at h
  split at h
  case h_2 => cases h
  case h_1 result after hgather =>
    obtain ⟨read, hread, hentries, hstart, hexhausted⟩ := gather_chain limits.count hcursor hgather
    cases h
    refine ⟨hstart, read, hstart ▸ hread, hentries, fun hnone hdone ↦ ?_⟩
    exact (hexhausted hnone hdone).resolve_left Bool.false_ne_true

/-- Of a folder nothing is read, and only a limit lets a pass come to its end. -/
theorem take_folder {batch : Batch} {reader : Reader}
    (h : (take .folder schema limits reader).1 = .ok batch) :
    batch.entries = [] ∧ batch.stop = batch.start ∧ (reader.limit = none → batch.exhausted = false) := by
  unfold take at h
  dsimp only at h
  split at h
  case h_2 => cases h
  case h_1 result after hgather =>
    cases h
    cases hcount : limits.count with
    | zero =>
      rw [hcount, gather] at hgather
      cases hgather
      exact ⟨rfl, rfl, fun _ ↦ rfl⟩
    | succ turns =>
      rw [hcount, gather] at hgather
      split at hgather
      case isTrue =>
        cases hgather
        exact ⟨rfl, rfl, fun _ ↦ rfl⟩
      case isFalse =>
        unfold Reader.nextFrom at hgather
        by_cases hlimit : reader.exceeds Frame.headerSize = true
        case pos =>
          rw [if_pos hlimit] at hgather
          cases hgather
          exact ⟨rfl, rfl, fun hnone ↦ absurd hnone (Reader.limit_ne_none_of_exceeds hlimit)⟩
        case neg =>
          rw [if_neg hlimit] at hgather
          cases hgather

end Batch

end LogShipping
