import Mathlib.Data.List.ReduceOption
import LogShipping.Proofs.Log.Buffering
import LogShipping.Proofs.Log.Written

/-!
# Following a file that is written

A log file is written in chunks that need not end where its records do, and a reader is called in between. As
long as what stands in the file is the front of whole records, the reader answers these records in order, each
once and as soon as it is whole: its position is where the answered ones end, and a call answers none only if the
next record does not stand whole in the file. It is the same for a reader that reads the file through a buffer.
-/

namespace LogShipping.Log

/-- A file that is written, a reader that follows it, and what the reader has answered. -/
structure Tail (σ : Type) where
  content : Bytes
  reader : σ
  answers : List (Outcome (Option Entry))

namespace Tail

inductive Event
  | write (octets : Bytes)
  | call

/-- The octets that are written in some events. -/
def octets (events : List Event) : Bytes :=
  events.flatMap fun event ↦
    match event with
    | .write octets => octets
    | .call => []

section Run

variable {σ : Type} (next : Bytes → σ → Outcome (Option Entry) × σ)

def step (tail : Tail σ) : Event → Tail σ
  | .write octets => { tail with content := tail.content ++ octets }
  | .call =>
    { tail with
      reader := (next tail.content tail.reader).2
      answers := tail.answers ++ [(next tail.content tail.reader).1] }

def run (tail : Tail σ) (events : List Event) : Tail σ := events.foldl (step next) tail

end Run

/-- A call of a reader as the system answers it. -/
def ask (content : Bytes) (reader : Reader) : Outcome (Option Entry) × Reader :=
  reader.nextFrom (.file content)

/-- The next of the entries that are left, if its record stands whole in the file. -/
def due (tail : Tail Reader) (rest : List Entry) : Option Entry :=
  rest.head?.filter fun entry ↦ tail.reader.position + entry.encode.length ≤ tail.content.length

/-- The reader has answered some entries and stands where they end. The file holds a front of what is written for
them and for the rest. -/
structure Exact (read rest : List Entry) (tail : Tail Reader) : Prop where
  content : tail.content <+: written (read ++ rest)
  position : tail.reader.position = (written read).length
  within : tail.reader.position ≤ tail.content.length
  cursor : tail.reader.cursor = tail.reader.position
  limit : tail.reader.limit = none
  answers : ∃ found : List (Option Entry), tail.answers = found.map .ok ∧ found.reduceOption = read

/-- A reader through a buffer is at the same place in the same file, and has answered the same. -/
structure Shadows (shadow : Tail Buffered) (tail : Tail Reader) : Prop where
  content : shadow.content = tail.content
  reader : shadow.reader.reader = tail.reader
  fresh : shadow.reader.Fresh tail.content
  answers : shadow.answers = tail.answers

variable {read rest : List Entry} {tail : Tail Reader}

namespace Exact

/-- What is ahead is the front of what is written for the rest. -/
theorem ahead_eq (h : Exact read rest tail) :
    tail.reader.ahead tail.content =
      (written rest).take (tail.content.length - (written read).length) := by
  calc tail.reader.ahead tail.content
      = tail.content.drop (written read).length := by rw [Reader.ahead, h.limit, Option.elim_none, h.position]
    _ = ((written read ++ written rest).take tail.content.length).drop (written read).length := by
      rw [← written_append, ← List.prefix_iff_eq_take.mp h.content]
    _ = (written rest).take (tail.content.length - (written read).length) := by
      rw [List.drop_take, List.drop_left]

theorem due_cons {entry : Entry} (h : Exact read (entry :: rest) tail) :
    tail.due (entry :: rest) =
      if entry.encode.length ≤ tail.content.length - (written read).length then some entry else none := by
  have hwithin := h.within
  rw [due, List.head?_cons, Option.filter_some, h.position]
  rw [h.position] at hwithin
  simp only [decide_eq_true_eq, Nat.le_sub_iff_add_le' hwithin]

/-- Nothing is answered, as long as the next record does not stand whole in the file. -/
theorem call_none (h : Exact read rest tail)
    (hframe : Frame.decode (tail.reader.ahead tail.content) = .incomplete) :
    ∃ after, tail.reader.next tail.content = (.ok none, after) ∧
      Exact read rest ⟨tail.content, after, tail.answers ++ [.ok none]⟩ := by
  obtain ⟨found, hanswers, hfound⟩ := h.answers
  refine ⟨_, Reader.next_of_incomplete h.cursor hframe, h.content, h.position, h.within, h.cursor, h.limit,
    found ++ [none], ?_, ?_⟩
  · rw [hanswers, List.map_append, List.map_singleton]
  · rw [List.reduceOption_append, hfound, List.reduceOption_singleton, Option.toList_none, List.append_nil]

/-- The next record is answered, if it stands whole in the file. -/
theorem call_some {entry : Entry} (h : Exact read (entry :: rest) tail)
    (hsize : entry.payload.length ≤ Frame.maxPayload)
    (hwhole : entry.encode.length ≤ tail.content.length - (written read).length) :
    ∃ after, tail.reader.next tail.content = (.ok (some entry), after) ∧
      Exact (read ++ [entry]) rest ⟨tail.content, after, tail.answers ++ [.ok (some entry)]⟩ := by
  obtain ⟨found, hanswers, hfound⟩ := h.answers
  have hahead := h.ahead_eq
  rw [written_cons, List.take_append, List.take_of_length_le hwhole] at hahead
  have hposition : tail.reader.position + entry.encode.length = (written (read ++ [entry])).length := by
    rw [written_append, List.length_append, h.position, written_singleton]
  refine ⟨_, Reader.next_of_written h.cursor hsize hahead, ?_, hposition, ?_, rfl, h.limit,
    found ++ [some entry], ?_, ?_⟩
  · rw [List.append_assoc]
    exact h.content
  · have hwithin := h.within
    rw [h.position] at hwithin
    rw [Reader.pass, h.position]
    dsimp only
    omega
  · rw [hanswers, List.map_append, List.map_singleton]
  · rw [List.reduceOption_append, hfound, List.reduceOption_singleton, Option.toList_some]

/-- A call answers the next record if it stands whole in the file, and none otherwise. -/
theorem call (h : Exact read rest tail) (hsize : ∀ entry ∈ rest, entry.payload.length ≤ Frame.maxPayload) :
    ∃ after left, tail.reader.next tail.content = (.ok (tail.due rest), after) ∧
      rest = (tail.due rest).toList ++ left ∧
      Exact (read ++ (tail.due rest).toList) left
        ⟨tail.content, after, tail.answers ++ [.ok (tail.due rest)]⟩ := by
  have hnone (hdue : tail.due rest = none)
      (hframe : Frame.decode (tail.reader.ahead tail.content) = .incomplete) :
      ∃ after left, tail.reader.next tail.content = (.ok (tail.due rest), after) ∧
        rest = (tail.due rest).toList ++ left ∧
        Exact (read ++ (tail.due rest).toList) left
          ⟨tail.content, after, tail.answers ++ [.ok (tail.due rest)]⟩ := by
    obtain ⟨after, hnext, hafter⟩ := h.call_none hframe
    rw [hdue, Option.toList_none, List.append_nil]
    exact ⟨after, rest, hnext, rfl, hafter⟩
  cases rest with
  | nil =>
    refine hnone rfl ?_
    rw [h.ahead_eq, written_nil, List.take_nil]
    rfl
  | cons entry rest =>
    have hdue := h.due_cons
    by_cases hwhole : entry.encode.length ≤ tail.content.length - (written read).length
    case pos =>
      obtain ⟨after, hnext, hafter⟩ := h.call_some (hsize entry List.mem_cons_self) hwhole
      rw [if_pos hwhole] at hdue
      rw [hdue]
      exact ⟨after, rest, hnext, rfl, hafter⟩
    case neg =>
      rw [if_neg hwhole] at hdue
      refine hnone hdue ?_
      rw [h.ahead_eq, written_cons, List.take_append_of_le_length (by omega)]
      exact Frame.decode_take_encode (hsize entry List.mem_cons_self) (Nat.not_le.mp hwhole)

/-- What is written behind the front of all entries leaves the reader where it is. -/
theorem write (h : Exact read rest tail) {octets : Bytes}
    (hwritten : tail.content ++ octets <+: written (read ++ rest)) :
    Exact read rest { tail with content := tail.content ++ octets } := by
  refine ⟨hwritten, h.position, ?_, h.cursor, h.limit, h.answers⟩
  rw [List.length_append]
  exact Nat.le_add_right_of_le h.within

theorem ask_eq (h : Exact read rest tail) (hfits : (written (read ++ rest)).length + Reader.block ≤ Reader.maxOffset) :
    ask tail.content tail.reader = tail.reader.next tail.content := by
  have hwithin := h.within
  have hcontent := h.content.length_le
  refine Reader.nextFrom_file ?_
  rw [h.cursor]
  omega

end Exact

theorem Shadows.write {shadow : Tail Buffered} (h : shadow.Shadows tail) (octets : Bytes) :
    Shadows { shadow with content := shadow.content ++ octets }
      { tail with content := tail.content ++ octets } :=
  ⟨congrArg (· ++ octets) h.content, h.reader, h.fresh.append octets, h.answers⟩

theorem Shadows.call {shadow : Tail Buffered} (h : shadow.Shadows tail) (supply : Supply)
    (hask : ask tail.content tail.reader = tail.reader.next tail.content) :
    (shadow.step (Buffered.next supply) .call).Shadows (tail.step ask .call) := by
  have hmirrors := Buffered.mirrors_next supply h.fresh
  rw [h.reader] at hmirrors
  rw [step, step, h.content, h.answers, hask, hmirrors.answer]
  exact ⟨rfl, hmirrors.reader, hmirrors.fresh, rfl⟩

/-- Through all writes and calls the reader stays exact, and so does its shadow. -/
theorem exact_run {shadow : Tail Buffered} (supply : Supply) (events : List Event) (h : Exact read rest tail)
    (hshadow : shadow.Shadows tail)
    (hsize : ∀ entry ∈ rest, entry.payload.length ≤ Frame.maxPayload)
    (hwritten : tail.content ++ octets events <+: written (read ++ rest))
    (hfits : (written (read ++ rest)).length + Reader.block ≤ Reader.maxOffset) :
    ∃ more left, rest = more ++ left ∧ Exact (read ++ more) left (tail.run ask events) ∧
      (shadow.run (Buffered.next supply) events).Shadows (tail.run ask events) := by
  induction events generalizing read rest tail shadow with
  | nil => exact ⟨[], rest, rfl, by rwa [List.append_nil], hshadow⟩
  | cons event events ih =>
    cases event with
    | write chunk =>
      have hoctets : octets (.write chunk :: events) = chunk ++ octets events := rfl
      rw [hoctets, ← List.append_assoc] at hwritten
      exact ih (h.write ((List.prefix_append ..).trans hwritten)) (hshadow.write chunk) hsize hwritten hfits
    | call =>
      have hask := h.ask_eq hfits
      obtain ⟨after, left, hnext, hrest, hafter⟩ := h.call hsize
      have hstep : tail.step ask .call = ⟨tail.content, after, tail.answers ++ [.ok (tail.due rest)]⟩ := by
        rw [step, hask, hnext]
      have hall : (read ++ (tail.due rest).toList) ++ left = read ++ rest := by
        rw [List.append_assoc, ← hrest]
      have hsize' (entry : Entry) (hmem : entry ∈ left) : entry.payload.length ≤ Frame.maxPayload := by
        refine hsize entry ?_
        rw [hrest]
        exact List.mem_append_right _ hmem
      rw [← hstep] at hafter
      obtain ⟨more, last, hleft, hexact, hsame⟩ := ih hafter (hshadow.call supply hask) hsize'
        (by rw [hall]; exact hwritten) (by rw [hall]; exact hfits)
      refine ⟨(tail.due rest).toList ++ more, last, ?_, ?_, hsame⟩
      · rw [List.append_assoc, ← hleft, ← hrest]
      · rw [← List.append_assoc]
        exact hexact

/-- A file that is empty as yet, and a reader of it from its start on. -/
def opened (path : String) : Tail Reader := ⟨[], Reader.start path 0 none, []⟩

/-- The same with a reader through a buffer. -/
def openedBuffered (path : String) : Tail Buffered := ⟨[], ⟨Reader.start path 0 none, []⟩, []⟩

/-- Whatever the chunks are in which whole records are written, and whenever the reader is called, no call fails, the
answered entries are the first of all in order, the position is where they end, and the next call answers the next
entry if its record stands whole in the file, and none otherwise. A reader through a buffer answers the same,
however much each read is granted. The file must end a block before the largest offset, as no block is read from
behind there. -/
theorem tailing_exact (path : String) (entries : List Entry)
    (hsize : ∀ entry ∈ entries, entry.payload.length ≤ Frame.maxPayload)
    (hfits : (written entries).length + Reader.block ≤ Reader.maxOffset) (events : List Event)
    (hwritten : octets events <+: written entries) (supply : Supply) :
    let tail := (opened path).run ask events
    let buffered := (openedBuffered path).run (Buffered.next supply) events
    ∃ read rest, entries = read ++ rest ∧
      (∃ found : List (Option Entry), tail.answers = found.map .ok ∧ found.reduceOption = read) ∧
      tail.reader.position = (written read).length ∧
      (ask tail.content tail.reader).1 = .ok (tail.due rest) ∧
      buffered.answers = tail.answers ∧ buffered.reader.reader = tail.reader ∧
      (buffered.reader.next supply buffered.content).1 = .ok (tail.due rest) := by
  intro tail buffered
  have hopened : Exact [] entries (opened path) :=
    ⟨List.nil_prefix, rfl, Nat.le_refl _, rfl, rfl, [], rfl, rfl⟩
  have hshadow : (openedBuffered path).Shadows (opened path) := ⟨rfl, rfl, List.nil_prefix, rfl⟩
  obtain ⟨read, rest, rfl, hexact, hsame⟩ := exact_run supply events hopened hshadow hsize hwritten hfits
  rw [List.nil_append] at hexact
  obtain ⟨after, -, hnext, -⟩ := hexact.call fun entry hmem ↦ hsize entry (List.mem_append_right _ hmem)
  have hanswer : (tail.reader.next tail.content).1 = .ok (tail.due rest) := by rw [hnext]
  have hmirrors := Buffered.mirrors_next supply hsame.fresh
  rw [hsame.reader, ← hsame.content] at hmirrors
  refine ⟨read, rest, rfl, hexact.answers, hexact.position, ?_, hsame.answers, hsame.reader, ?_⟩
  · rw [hexact.ask_eq hfits]
    exact hanswer
  · rw [hmirrors.answer, hsame.content]
    exact hanswer

/-- A header is cut, and so is the second record. The first entry was read, and the reader stands behind its record. -/
theorem tailing_exact_chunks :
    let events : List Event := [.write ((written [bareEntry, putEntry]).take 5), .call,
      .write (((written [bareEntry, putEntry]).drop 5).take 65), .call, .call]
    ((opened "a.wal").run ask events).answers = [.ok none, .ok (some bareEntry), .ok none] ∧
      ((opened "a.wal").run ask events).reader.position = 63 := by
  intro events
  have hoctets : octets events = (written [bareEntry, putEntry]).take (5 + 65) := by
    simp only [events, octets, List.flatMap_cons, List.flatMap_nil, List.nil_append, List.append_nil,
      List.take_add]
  obtain ⟨read, rest, -, ⟨found, hfound, rfl⟩, hposition, -⟩ := tailing_exact "a.wal" [bareEntry, putEntry]
    (by decide +kernel) (by decide +kernel) events (hoctets ▸ List.take_prefix ..)
    ⟨fun _ _ asked ↦ asked, fun _ _ _ hasked ↦ hasked⟩
  have hanswers : ((opened "a.wal").run ask events).answers = [none, some bareEntry, none].map .ok := by
    decide +kernel
  obtain rfl : found = [none, some bareEntry, none] :=
    (List.map_inj_right fun _ _ h ↦ Except.ok.inj h).mp (hfound.symm.trans hanswers)
  exact ⟨hanswers, hposition.trans (by decide +kernel)⟩

end Tail

end LogShipping.Log
