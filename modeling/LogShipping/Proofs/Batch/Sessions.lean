import LogShipping.Proofs.Batch.Passes

/-!
# Sessions of a reader

A session is a log file as it stands and one reader of it. It goes on by what is written to the file, and by
what the reader is asked: for the next entry, or for a batch, for which a pass asks for one entry after the
other. Each of these calls for an entry is a visit; what becomes of the reader is told by its visits.

So is its flag. A visit sets it that stops at a torn record, and nothing takes it back, neither what is
written behind that record nor that the record is answered once it is whole. The flag tells whether any visit
so far has stopped so, which is what the last one did only if it stopped so or no other one had.
-/

namespace LogShipping

open Log (Reader bareEntry)

/-- The readers whose next entry a pass asks for, one after the other. -/
def Batch.visits (source : Directory.Source) (schema : Schema) (limits : Limits) :
    (turns : Nat) → Batch → Reader → List Reader
  | 0, _, _ => []
  | turns + 1, batch, reader =>
    if limits.size ≤ batch.heapSize then []
    else
      match reader.nextFrom source with
      | (.ok (some entry), after) =>
        reader :: visits source schema limits turns (batch.add (entry.filter schema)) after
      | _ => [reader]

/-- What each visit of a pass keeps is kept by the pass. -/
theorem Batch.gather_induction {Keeps : Reader → Prop} {source : Directory.Source} {schema : Schema}
    {limits : Limits} {turns : Nat} {batch : Batch} {reader : Reader} (h : Keeps reader)
    (hvisits : ∀ visit ∈ visits source schema limits turns batch reader,
      Keeps visit → Keeps (visit.nextFrom source).2) :
    Keeps (gather source schema limits turns batch reader).2 := by
  induction turns generalizing batch reader with
  | zero => exact h
  | succ turns ih =>
    rw [gather]
    rw [visits] at hvisits
    by_cases hsize : limits.size ≤ batch.heapSize
    case pos =>
      rw [if_pos hsize]
      exact h
    case neg =>
      rw [if_neg hsize] at hvisits ⊢
      rcases hnext : reader.nextFrom source with ⟨error | _ | entry, after⟩
      case error =>
        rw [hnext] at hvisits
        have hafter := hvisits reader List.mem_cons_self h
        rw [hnext] at hafter
        dsimp only
        split <;> exact hafter
      case ok.none =>
        rw [hnext] at hvisits
        have hafter := hvisits reader List.mem_cons_self h
        rwa [hnext] at hafter
      case ok.some =>
        rw [hnext] at hvisits
        have hafter := hvisits reader List.mem_cons_self h
        rw [hnext] at hafter
        exact ih hafter fun visit hvisit ↦ hvisits visit (List.mem_cons_of_mem _ hvisit)

structure Session where
  content : Bytes
  reader : Reader

namespace Session

inductive Ask
  | entry
  | batch (schema : Schema) (limits : Batch.Limits)

inductive Answer
  | entry (outcome : Outcome (Option Entry))
  | batch (outcome : Outcome Batch)

inductive Event
  | write (octets : Bytes)
  | ask (ask : Ask)

namespace Ask

def serve (content : Bytes) (reader : Reader) : Ask → Answer × Reader
  | entry => ((reader.nextFrom (.file content)).map .entry id)
  | batch schema limits => ((Batch.take (.file content) schema limits reader).map .batch id)

/-- The readers whose next entry is asked for. -/
def visits (content : Bytes) (reader : Reader) : Ask → List Reader
  | entry => [reader]
  | batch schema limits =>
    Batch.visits (.file content) schema limits limits.count (Batch.gathered schema reader.position []) reader

end Ask

def step (session : Session) : Event → Session
  | .write octets => { session with content := session.content ++ octets }
  | .ask ask => { session with reader := (ask.serve session.content session.reader).2 }

def run (session : Session) (events : List Event) : Session := events.foldl step session

/-- The sessions at the visits of one event. -/
def visitsOf (session : Session) : Event → List Session
  | .write _ => []
  | .ask ask => (ask.visits session.content session.reader).map (⟨session.content, ·⟩)

/-- The sessions at all visits of a run. -/
def visits (session : Session) : List Event → List Session
  | [] => []
  | event :: events => session.visitsOf event ++ (session.step event).visits events

theorem run_concat (session : Session) (events : List Event) (event : Event) :
    session.run (events ++ [event]) = (session.run events).step event := by
  rw [run, List.foldl_append]
  rfl

end Session

/-! ## Torn records -/

namespace Log.Reader

variable {content : Bytes} {reader : Reader}

/-- Octets lie at the cursor that end before the record does, though the limit lets all of it be read. -/
structure Cut (content : Bytes) (reader : Reader) : Prop where
  part : content.drop reader.cursor ≠ []
  short : Frame.decode (content.drop reader.cursor) = .incomplete
  record : Frame.headerSize ≤ (content.drop reader.cursor).length →
    ¬reader.exceeds (Frame.headerSize + Frame.payloadLength (content.drop reader.cursor)) = true

/-- A call stops at a torn record: it looks for a record, and finds it cut. -/
structure Tears (content : Bytes) (reader : Reader) : Prop extends Cut content reader where
  header : ¬reader.exceeds Frame.headerSize = true
  reach : reader.cursor + block ≤ maxOffset

theorem truncated_settle_iff (reader : Reader) (frame : Bytes) :
    (reader.settle frame).2.truncated = true ↔
      reader.truncated = true ∨ Frame.decode frame = .incomplete := by
  unfold settle
  dsimp only
  cases Frame.decode frame with
  | incomplete => exact iff_of_true rfl (.inr rfl)
  | corrupt fault => exact (or_iff_left nofun).symm
  | complete payload consumed =>
    dsimp only
    cases Entry.decode payload <;> exact (or_iff_left nofun).symm

/-- A limit that admits a header lets the number in it be read. -/
theorem payloadLength_onward (hheader : ¬reader.exceeds Frame.headerSize = true) :
    Frame.payloadLength (reader.onward content) = Frame.payloadLength (content.drop reader.cursor) := by
  rw [← Frame.payloadLength_take _ (Nat.le_refl _), take_onward content hheader,
    Frame.payloadLength_take _ (Nat.le_refl _)]

/-- Behind a whole header it depends on the record. -/
theorem truncated_next_iff_of_header (hheader : ¬reader.exceeds Frame.headerSize = true)
    (hwhole : Frame.headerSize ≤ (content.drop reader.cursor).length) :
    (reader.next content).2.truncated = true ↔ reader.truncated = true ∨ reader.Cut content := by
  have hfront := take_onward content hheader
  have honward : Frame.headerSize ≤ (reader.onward content).length := by
    have hlength := congrArg List.length hfront
    rw [List.length_take, List.length_take] at hlength
    omega
  rw [next_header honward, payloadLength_onward hheader]
  by_cases hsize : Frame.maxPayload < Frame.payloadLength (content.drop reader.cursor)
  case pos =>
    have hcorrupt : ¬Frame.decode (content.drop reader.cursor) = .incomplete := by
      rw [Frame.decode_eq_incomplete_iff]
      omega
    rw [if_pos hsize, hfront, truncated_settle_iff, Frame.decode_take_header hwhole hsize]
    exact or_congr_right (iff_of_false hcorrupt fun hcut ↦ hcorrupt hcut.short)
  case neg =>
    rw [if_neg hsize]
    by_cases hrecord :
        reader.exceeds (Frame.headerSize + Frame.payloadLength (content.drop reader.cursor)) = true
    case pos =>
      rw [if_pos hrecord]
      exact (or_iff_left fun hcut ↦ hcut.record hwhole hrecord).symm
    case neg =>
      have hpart : content.drop reader.cursor ≠ [] :=
        List.ne_nil_of_length_pos (Nat.lt_of_lt_of_le (by decide) hwhole)
      rw [if_neg hrecord, take_onward content hrecord, truncated_settle_iff, Frame.decode_take_frame hwhole]
      exact or_congr_right ⟨fun hshort ↦ ⟨hpart, hshort, fun _ ↦ hrecord⟩, Cut.short⟩

theorem truncated_next_iff (hheader : ¬reader.exceeds Frame.headerSize = true) :
    (reader.next content).2.truncated = true ↔ reader.truncated = true ∨ reader.Cut content := by
  by_cases hwhole : Frame.headerSize ≤ (content.drop reader.cursor).length
  case pos => exact truncated_next_iff_of_header hheader hwhole
  case neg =>
    have hless := Nat.not_le.mp hwhole
    unfold next
    dsimp only
    rw [if_neg hheader, List.take_of_length_le (Nat.le_of_lt hless), if_pos hless]
    by_cases hpart : content.drop reader.cursor = []
    case pos =>
      rw [if_pos (List.isEmpty_iff.mpr hpart)]
      exact (or_iff_left fun hcut ↦ hcut.part hpart).symm
    case neg =>
      rw [if_neg (mt List.isEmpty_iff.mp hpart)]
      exact iff_of_true rfl
        (.inr ⟨hpart, Frame.decode_eq_incomplete_iff.mpr (.inl hless), fun hlong ↦ absurd hlong hwhole⟩)

/-- A call sets the flag if and only if it stops at a torn record, and never takes it back. -/
theorem truncated_nextFrom_iff (content : Bytes) (reader : Reader) :
    (reader.nextFrom (.file content)).2.truncated = true ↔
      reader.truncated = true ∨ reader.Tears content := by
  unfold nextFrom
  by_cases hheader : reader.exceeds Frame.headerSize = true
  case pos =>
    rw [if_pos hheader]
    exact (or_iff_left fun htears ↦ htears.header hheader).symm
  case neg =>
    rw [if_neg hheader]
    dsimp only
    by_cases hreach : maxOffset < reader.cursor + block
    case pos =>
      rw [if_pos hreach]
      exact (or_iff_left fun htears ↦ Nat.not_lt.mpr htears.reach hreach).symm
    case neg =>
      rw [if_neg hreach, truncated_next_iff hheader]
      exact or_congr_right ⟨fun hcut ↦ ⟨hcut, hheader, Nat.not_lt.mp hreach⟩, Tears.toCut⟩

theorem length_onward_le (content : Bytes) (reader : Reader) :
    (reader.onward content).length ≤ (content.drop reader.cursor).length := by
  rw [onward]
  cases reader.limit with
  | none => exact Nat.le_refl _
  | some limit => exact List.length_take_le' ..

/-- A call that stops at a torn record answers none. -/
theorem Tears.nextFrom (h : reader.Tears content) :
    (reader.nextFrom (.file content)).1 = .ok none := by
  have hless := length_onward_le content reader
  have hshort : Frame.decode (reader.onward content) = .incomplete := by
    rw [Frame.decode_eq_incomplete_iff, payloadLength_onward h.header]
    exact (Frame.decode_eq_incomplete_iff.mp h.short).imp (Nat.lt_of_le_of_lt hless)
      (And.imp_right (Nat.lt_of_le_of_lt hless))
  obtain ⟨after, hnext, -⟩ := next_incomplete hshort
  rw [nextFrom_file h.reach, hnext]

end Log.Reader

namespace Session

open Batch

/-- The visit stops at a torn record. -/
def Tears (session : Session) : Prop := session.reader.Tears session.content

theorem truncated_gather_iff (content : Bytes) (schema : Schema) (limits : Limits) (turns : Nat)
    (batch : Batch) (reader : Reader) :
    (gather (.file content) schema limits turns batch reader).2.truncated = true ↔
      reader.truncated = true ∨
        ∃ visit ∈ Batch.visits (.file content) schema limits turns batch reader, visit.Tears content := by
  induction turns generalizing batch reader with
  | zero => simp [gather, Batch.visits]
  | succ turns ih =>
    rw [gather, Batch.visits]
    by_cases hsize : limits.size ≤ batch.heapSize
    case pos =>
      rw [if_pos hsize, if_pos hsize]
      simp
    case neg =>
      rw [if_neg hsize, if_neg hsize]
      have hcall := Reader.truncated_nextFrom_iff content reader
      rcases hnext : reader.nextFrom (.file content) with ⟨error | _ | entry, after⟩
      case error =>
        rw [hnext] at hcall
        dsimp only
        split <;> simpa using hcall
      case ok.none =>
        rw [hnext] at hcall
        simpa using hcall
      case ok.some =>
        rw [hnext] at hcall
        dsimp only at hcall ⊢
        rw [ih, hcall, or_assoc]
        simp only [List.mem_cons, or_and_right, exists_or, exists_eq_left]

theorem truncated_take_iff (content : Bytes) (schema : Schema) (limits : Limits) (reader : Reader) :
    (take (.file content) schema limits reader).2.truncated = true ↔
      reader.truncated = true ∨
        ∃ visit ∈ (Ask.batch schema limits).visits content reader, visit.Tears content := by
  rw [take_eq rfl]
  exact truncated_gather_iff ..

/-- The flag of a batch is that of the reader behind it. -/
theorem truncated_of_take {content : Bytes} {schema : Schema} {limits : Limits} {reader after : Reader}
    {batch : Batch} (h : take (.file content) schema limits reader = (.ok batch, after)) :
    batch.truncated = after.truncated := by
  cases hgather : gather (.file content) schema limits limits.count (gathered schema reader.position [])
    reader with
  | mk result middle =>
    rw [take_eq hgather] at h
    cases result with
    | error error => cases h
    | ok batch =>
      cases h
      rfl

/-- What is asked makes a call that stops at a torn record. -/
def Stops (session : Session) (ask : Ask) : Prop := ∃ visit ∈ session.visitsOf (.ask ask), visit.Tears

/-- A single call stops so if and only if the record in front of it is torn. -/
theorem stops_entry_iff (session : Session) : session.Stops .entry ↔ session.Tears := by
  simp [Stops, visitsOf, Ask.visits]

theorem truncated_step_iff (session : Session) (event : Event) :
    (session.step event).reader.truncated = true ↔
      session.reader.truncated = true ∨ ∃ visit ∈ session.visitsOf event, visit.Tears := by
  cases event with
  | write octets => exact (or_iff_left fun ⟨_, hnone, _⟩ ↦ List.not_mem_nil hnone).symm
  | ask ask =>
    have hserve : (ask.serve session.content session.reader).2.truncated = true ↔
        session.reader.truncated = true ∨
          ∃ visit ∈ ask.visits session.content session.reader, visit.Tears session.content := by
      cases ask with
      | entry =>
        rw [Ask.visits]
        simp only [List.mem_singleton, exists_eq_left]
        exact Reader.truncated_nextFrom_iff ..
      | batch schema limits => exact truncated_take_iff ..
    simp only [visitsOf, List.mem_map, exists_exists_and_eq_and]
    exact hserve

theorem truncated_run_iff (session : Session) (events : List Event) :
    (session.run events).reader.truncated = true ↔
      session.reader.truncated = true ∨ ∃ visit ∈ session.visits events, visit.Tears := by
  induction events generalizing session with
  | nil => exact (or_iff_left fun ⟨_, hnone, _⟩ ↦ List.not_mem_nil hnone).symm
  | cons event events ih =>
    calc ((session.step event).run events).reader.truncated = true
      _ ↔ (session.reader.truncated = true ∨ ∃ visit ∈ session.visitsOf event, visit.Tears) ∨
          ∃ visit ∈ (session.step event).visits events, visit.Tears := by
        rw [ih, truncated_step_iff]
      _ ↔ session.reader.truncated = true ∨ ∃ visit ∈ session.visits (event :: events), visit.Tears := by
        rw [or_assoc, visits]
        simp only [List.mem_append, or_and_right, exists_or]

/-- In every session of an opened reader, whatever is written and asked, the flag tells whether any call so far
has stopped at a torn record. Of what is asked next it tells the truth if and only if that stops at a torn
record, or nothing before did; and a batch takes the flag of its reader over. -/
theorem truncated_iff_stopped (content : Bytes) (path : String) (offset : Nat) (limit : Option Nat)
    (events : List Event) :
    let opened : Session := ⟨content, Reader.start path offset limit⟩
    let session := opened.run events
    (session.reader.truncated = true ↔ ∃ visit ∈ opened.visits events, visit.Tears) ∧
      ∀ ask : Ask,
        (((session.step (.ask ask)).reader.truncated = true ↔ session.Stops ask) ↔
          session.Stops ask ∨ ∀ visit ∈ opened.visits events, ¬visit.Tears) ∧
        ∀ batch, (ask.serve session.content session.reader).1 = .batch (.ok batch) →
          batch.truncated = (session.step (.ask ask)).reader.truncated := by
  intro opened session
  have hflag : session.reader.truncated = true ↔ ∃ visit ∈ opened.visits events, visit.Tears := by
    rw [truncated_run_iff]
    exact or_iff_right Bool.false_ne_true
  refine ⟨hflag, fun ask ↦ ⟨?_, fun batch hbatch ↦ ?_⟩⟩
  · have hnone : (∀ visit ∈ opened.visits events, ¬visit.Tears) ↔
        ¬∃ visit ∈ opened.visits events, visit.Tears := by
      simp only [not_exists, not_and]
    rw [truncated_step_iff, hflag, hnone, ← Stops]
    by_cases hstops : session.Stops ask
    case pos => exact iff_of_true (iff_of_true (.inr hstops) hstops) (.inl hstops)
    case neg => rw [or_iff_left hstops, or_iff_right hstops, iff_false_right hstops]
  · cases ask with
    | entry => cases hbatch
    | batch schema limits =>
      cases htake : take (.file session.content) schema limits session.reader with
      | mk outcome after =>
        simp only [Ask.serve, htake, Prod.map, Answer.batch.injEq] at hbatch
        subst hbatch
        simp only [step, Ask.serve, htake, Prod.map, id_eq]
        exact truncated_of_take htake

/-- A record of which the second half is not written yet. -/
def halfWritten : Session := ⟨bareEntry.encode.take 30, Reader.start "a.wal" 0 none⟩

theorem nextFrom_halfWritten :
    halfWritten.reader.nextFrom (.file halfWritten.content) = (.ok none, ⟨"a.wal", 0, 0, none, true⟩) := by
  have hframe : Frame.decode (halfWritten.reader.ahead halfWritten.content) = .incomplete :=
    Frame.decode_take_encode (by decide +kernel) (by decide +kernel)
  have htorn : halfWritten.reader.torn halfWritten.content = true := by decide +kernel
  rw [Reader.nextFrom_file (by decide), Reader.next_of_incomplete rfl hframe, htorn]
  rfl

theorem truncated_iff_stopped_torn :
    ∃ batch, ((Ask.batch (.ofNames ["f"]) ⟨1000, 10⟩).serve halfWritten.content halfWritten.reader).1 =
        .batch (.ok batch) ∧ batch.truncated = true := by
  have hgather : gather (.file halfWritten.content) (.ofNames ["f"]) ⟨1000, 10⟩ 10
      (gathered (.ofNames ["f"]) 0 []) halfWritten.reader =
        (.ok { gathered (.ofNames ["f"]) 0 [] with exhausted := true }, ⟨"a.wal", 0, 0, none, true⟩) := by
    rw [gather, if_neg (by decide), nextFrom_halfWritten]
  have htake : take (.file halfWritten.content) (.ofNames ["f"]) ⟨1000, 10⟩ halfWritten.reader = _ := take_eq hgather
  have hbatch : ((Ask.batch (.ofNames ["f"]) ⟨1000, 10⟩).serve halfWritten.content halfWritten.reader).1 = _ :=
    congrArg Answer.batch (Prod.mk.inj htake).1
  refine ⟨_, hbatch, ?_⟩
  rw [((truncated_iff_stopped _ "a.wal" 0 none []).2 _).2 _ hbatch]
  exact congrArg Reader.truncated (Prod.mk.inj htake).2

/-- The second call answers the record, which is whole by now, and the flag stays set. -/
theorem truncated_behind_torn :
    let session := halfWritten.run [.ask .entry, .write (bareEntry.encode.drop 30)]
    (Ask.entry.serve session.content session.reader).1 = .entry (.ok (some bareEntry)) ∧
      ¬((session.step (.ask .entry)).reader.truncated = true ↔ session.Stops .entry) := by
  intro session
  have hcall : halfWritten.step (.ask .entry) = ⟨halfWritten.content, ⟨"a.wal", 0, 0, none, true⟩⟩ := by
    simp only [step, Ask.serve, nextFrom_halfWritten, Prod.map, id_eq]
  have hsession : session = ⟨bareEntry.encode, ⟨"a.wal", 0, 0, none, true⟩⟩ := by
    calc session = (halfWritten.step (.ask .entry)).step (.write (bareEntry.encode.drop 30)) := rfl
      _ = ⟨bareEntry.encode.take 30 ++ bareEntry.encode.drop 30, ⟨"a.wal", 0, 0, none, true⟩⟩ := by
        rw [hcall]
        rfl
      _ = ⟨bareEntry.encode, ⟨"a.wal", 0, 0, none, true⟩⟩ := by rw [List.take_append_drop]
  have hnext : session.reader.nextFrom (.file session.content) =
      (.ok (some bareEntry), session.reader.pass bareEntry.encode.length) := by
    rw [hsession, Reader.nextFrom_file (by decide)]
    exact Reader.next_of_written rfl (by decide +kernel) (List.append_nil _).symm
  have hstops : ¬session.Stops .entry := by
    rw [stops_entry_iff]
    intro htears
    have hnone := htears.nextFrom
    rw [hnext] at hnone
    cases hnone
  have hflag : (session.step (.ask .entry)).reader.truncated = true := by
    rw [truncated_step_iff, hsession]
    exact .inl rfl
  exact ⟨congrArg Answer.entry (Prod.mk.inj hnext).1, fun h ↦ hstops (h.mp hflag)⟩

end Session

end LogShipping
