import LogShipping.Proofs.Batch.Sessions
import Mathlib.Algebra.Ring.Nat

/-!
# Readers over damaged records

A damaged record is a corrupt frame, or a whole one whose payload is no entry. A call that meets one fails and
names the position, which it leaves where it was; but it leaves the cursor behind what it read. So the next call
meets what lies behind: as many calls fail at one position as damaged records lie there in a row, and the one
after them does not. If there is a whole record behind the damaged ones, that call answers it, and the position
moves on by the size of that record; if there is none, the reader stays where it is, and fails again once it has
gone back to its position.
-/

namespace LogShipping

open Log (Reader bareEntry)

namespace Log

/-! ## Damaged records -/

/-- What stands at the front of some octets. -/
inductive Front
  /-- No whole record. -/
  | cut
  /-- A corrupt frame, or one whose payload is no entry. -/
  | damaged (size : Nat)
  | record (entry : Entry) (size : Nat)
  deriving DecidableEq

def Front.size : Front → Nat
  | cut => 0
  | damaged size => size
  | record _ size => size

def front (bytes : Bytes) : Front :=
  match Frame.decode bytes with
  | .incomplete => .cut
  | .corrupt _ => .damaged (Frame.extent bytes)
  | .complete payload consumed =>
    match Entry.decode payload with
    | .error _ => .damaged consumed
    | .ok entry => .record entry consumed

section Octets

variable {window : Option Nat} {bytes : Bytes} {size : Nat}

theorem front_of_corrupt {fault : Frame.Fault} (h : Frame.decode bytes = .corrupt fault) :
    front bytes = .damaged (Frame.extent bytes) := by rw [front, h]

theorem front_of_complete {payload : Bytes} {consumed : Nat}
    (h : Frame.decode bytes = .complete payload consumed) :
    (∃ error, Entry.decode payload = .error error ∧ front bytes = .damaged consumed) ∨
      ∃ entry, Entry.decode payload = .ok entry ∧ front bytes = .record entry consumed := by
  cases hentry : Entry.decode payload with
  | error error => exact .inl ⟨error, rfl, by rw [front, h]; dsimp only; rw [hentry]⟩
  | ok entry => exact .inr ⟨entry, rfl, by rw [front, h]; dsimp only; rw [hentry]⟩

/-- What stands whole at the front has octets, and these stand there. -/
theorem size_front_bounds (h : front bytes ≠ .cut) : 0 < (front bytes).size ∧ (front bytes).size ≤ bytes.length := by
  cases hframe : Frame.decode bytes with
  | incomplete => exact absurd (by rw [front, hframe]) h
  | corrupt fault =>
    have hwhole : ¬(bytes.length < Frame.headerSize ∨ Frame.payloadLength bytes ≤ Frame.maxPayload ∧
        bytes.length < Frame.headerSize + Frame.payloadLength bytes) := by
      rw [← Frame.decode_eq_incomplete_iff, hframe]
      exact nofun
    rw [front_of_corrupt hframe, Front.size, Frame.extent]
    rw [Frame.headerSize] at hwhole ⊢
    split <;> omega
  | complete payload consumed =>
    have hconsumed := Frame.consumed_of_decode hframe
    rw [Frame.headerSize] at hconsumed
    have hsize : (front bytes).size = consumed := by
      rcases front_of_complete hframe with ⟨_, -, hfront⟩ | ⟨_, -, hfront⟩
      · rw [hfront, Front.size]
      · rw [hfront, Front.size]
    omega

theorem bounds_of_damaged (h : front bytes = .damaged size) : 0 < size ∧ size ≤ bytes.length := by
  have hwhole : front bytes ≠ .cut := by
    intro hcut
    cases h.symm.trans hcut
  have hbounds := size_front_bounds hwhole
  rwa [h] at hbounds

theorem bounds_of_record {entry : Entry} (h : front bytes = .record entry size) : 0 < size ∧ size ≤ bytes.length := by
  have hwhole : front bytes ≠ .cut := by
    intro hcut
    cases h.symm.trans hcut
  have hbounds := size_front_bounds hwhole
  rwa [h] at hbounds

/-- The octets within a window, if there is one. -/
def within (window : Option Nat) (bytes : Bytes) : Bytes := window.elim bytes bytes.take

theorem length_within_le (window : Option Nat) (bytes : Bytes) :
    (within window bytes).length ≤ bytes.length := by
  cases window with
  | none => exact Nat.le_refl _
  | some size => exact List.length_take_le' ..

/-- The sizes of the damaged records that lie in a row at the front of some octets, each within the window. -/
def damages (window : Option Nat) (bytes : Bytes) : List Nat :=
  match _front : front (within window bytes) with
  | .damaged size => size :: damages window (bytes.drop size)
  | .cut | .record _ _ => []
termination_by bytes.length
decreasing_by
  have hbounds := bounds_of_damaged _front
  have hlength := length_within_le window bytes
  rw [List.length_drop]
  omega

theorem damages_of_damaged (h : front (within window bytes) = .damaged size) :
    damages window bytes = size :: damages window (bytes.drop size) := by
  rw [damages]
  split
  case h_1 other hother =>
    cases h.symm.trans hother
    rfl
  case h_2 hother => cases h.symm.trans hother
  case h_3 hother => cases h.symm.trans hother

theorem damages_of_not_damaged (h : ∀ size, front (within window bytes) ≠ .damaged size) :
    damages window bytes = [] := by
  rw [damages]
  split
  case h_1 size hdamaged => exact absurd hdamaged (h size)
  case h_2 => rfl
  case h_3 => rfl

theorem head?_damages_eq_some_iff :
    (damages window bytes).head? = some size ↔ front (within window bytes) = .damaged size := by
  by_cases h : ∃ other, front (within window bytes) = .damaged other
  case pos =>
    obtain ⟨other, hother⟩ := h
    rw [damages_of_damaged hother, List.head?_cons, hother, Option.some.injEq, Front.damaged.injEq]
  case neg =>
    rw [damages_of_not_damaged fun other hother ↦ h ⟨other, hother⟩, List.head?_nil]
    exact iff_of_false nofun fun hother ↦ h ⟨size, hother⟩

/-- Behind some of the damaged records the others lie. -/
theorem damages_drop (window : Option Nat) (bytes : Bytes) (met : Nat) :
    damages window (bytes.drop ((damages window bytes).take met).sum) = (damages window bytes).drop met := by
  induction met generalizing bytes with
  | zero => rfl
  | succ met ih =>
    by_cases h : ∃ size, front (within window bytes) = .damaged size
    case pos =>
      obtain ⟨size, hsize⟩ := h
      rw [damages_of_damaged hsize, List.take_succ_cons, List.sum_cons, ← List.drop_drop, ih, List.drop_succ_cons]
    case neg =>
      have hnone : damages window bytes = [] := damages_of_not_damaged fun size hsize ↦ h ⟨size, hsize⟩
      rw [hnone, List.take_nil, List.sum_nil, List.drop_zero, hnone, List.drop_nil]

theorem sum_damages_le (window : Option Nat) (bytes : Bytes) : (damages window bytes).sum ≤ bytes.length := by
  induction bytes using damages.induct window with
  | case1 bytes size h ih =>
    have hbounds := bounds_of_damaged h
    have hlength := length_within_le window bytes
    rw [List.length_drop] at ih
    rw [damages_of_damaged h, List.sum_cons]
    omega
  | case2 bytes h | case3 bytes _ _ h =>
    rw [damages_of_not_damaged fun size hother ↦ by cases h.symm.trans hother]
    exact Nat.zero_le _

end Octets

/-! ## Calls over damaged records -/

namespace Reader

variable {content : Bytes} {reader : Reader} {met : Nat}

/-- How far from its position on the limit lets a reader see. It sees as far from its cursor on. -/
def window (reader : Reader) : Option Nat := reader.limit.map (· - reader.position)

theorem onward_eq_within (content : Bytes) (reader : Reader) :
    reader.onward content = within reader.window (content.drop reader.cursor) := by
  rw [onward, within, window]
  cases reader.limit <;> rfl

/-- A call answers the record in front of the cursor, fails over a damaged one, and answers none in front of
anything else. -/
theorem next_cases (content : Bytes) (reader : Reader) :
    (front (reader.onward content) = .cut ∧ ∃ after, reader.next content = (.ok none, after) ∧
      (after = reader ∨ after = reader.rewind ∨ after = reader.tear)) ∨
    (∃ size detail, front (reader.onward content) = .damaged size ∧ reader.next content =
      (.error (reader.corrupt detail), { reader with cursor := reader.cursor + size })) ∨
    (∃ entry size, front (reader.onward content) = .record entry size ∧ reader.next content = (.ok (some entry),
      { reader with cursor := reader.cursor + size, position := reader.position + size })) := by
  cases hframe : Frame.decode (reader.onward content) with
  | incomplete => exact .inl ⟨by rw [front, hframe], next_incomplete hframe⟩
  | corrupt fault => exact .inr (.inl ⟨_, _, front_of_corrupt hframe, next_corrupt hframe⟩)
  | complete payload consumed =>
    have hnext := next_complete hframe
    rcases front_of_complete hframe with ⟨error, hentry, hfront⟩ | ⟨entry, hentry, hfront⟩
    · rw [hentry] at hnext
      exact .inr (.inl ⟨_, _, hfront, hnext⟩)
    · rw [hentry] at hnext
      exact .inr (.inr ⟨_, _, hfront, hnext⟩)

/-- The sizes of the damaged records that lie in a row at the position. -/
def damages (content : Bytes) (reader : Reader) : List Nat :=
  Log.damages reader.window (content.drop reader.position)

/-- What the reader sees behind them. -/
def beyond (content : Bytes) (reader : Reader) : Bytes :=
  within reader.window (content.drop (reader.position + (reader.damages content).sum))

/-- The reader with the cursor behind some of them. -/
def past (content : Bytes) (reader : Reader) (met : Nat) : Reader :=
  { reader with cursor := reader.position + ((reader.damages content).take met).sum }

/-- The cursor is behind some of the damaged records at the position. -/
structure Amid (content : Bytes) (reader : Reader) (met : Nat) : Prop where
  count : met ≤ (reader.damages content).length
  cursor : reader.cursor = reader.position + ((reader.damages content).take met).sum

theorem amid_of_cursor (content : Bytes) (hcursor : reader.cursor = reader.position) : reader.Amid content 0 :=
  ⟨Nat.zero_le _, hcursor⟩

theorem amid_past {met : Nat} (hmet : met ≤ (reader.damages content).length) :
    (reader.past content met).Amid content met := ⟨hmet, rfl⟩

namespace Amid

theorem past_eq (h : reader.Amid content met) : reader.past content met = reader := by
  rw [past, ← h.cursor]

theorem front_onward_eq_damaged_iff (h : reader.Amid content met) {size : Nat} :
    front (reader.onward content) = .damaged size ↔ (reader.damages content)[met]? = some size := by
  rw [onward_eq_within, ← head?_damages_eq_some_iff, h.cursor, ← List.drop_drop, damages, damages_drop,
    List.head?_drop]

theorem onward_eq_beyond (h : reader.Amid content met) (hmet : met = (reader.damages content).length) :
    reader.onward content = reader.beyond content := by
  rw [onward_eq_within, h.cursor, hmet, List.take_length, beyond]

theorem cursor_le (h : reader.Amid content met) : reader.cursor ≤ max reader.position content.length := by
  have hsum := sum_damages_le reader.window (content.drop reader.position)
  have hmet := congrArg List.sum (List.take_append_drop met (reader.damages content))
  rw [List.sum_append] at hmet
  rw [List.length_drop, ← damages] at hsum
  rw [h.cursor]
  omega

theorem nextFrom (h : reader.Amid content met) (hfits : Batch.Fits content reader) :
    reader.nextFrom (.file content) = reader.next content := by
  have hcursor := h.cursor_le
  rw [Batch.Fits] at hfits
  exact nextFrom_file (by omega)

/-- As long as damaged records are left ahead, a call fails, and has one more of them behind it. -/
theorem fails (h : reader.Amid content met) (hfits : Batch.Fits content reader)
    (hmet : met < (reader.damages content).length) :
    ∃ detail, reader.nextFrom (.file content) =
      (.error (reader.corrupt detail), reader.past content (met + 1)) := by
  have hfront := h.front_onward_eq_damaged_iff.mpr (List.getElem?_eq_getElem hmet)
  rcases next_cases content reader with ⟨hother, -⟩ | ⟨size, detail, hother, hnext⟩ | ⟨_, _, hother, -⟩
  · cases hother.symm.trans hfront
  · obtain rfl := Front.damaged.inj (hother.symm.trans hfront)
    refine ⟨detail, ?_⟩
    rw [h.nextFrom hfits, hnext, past, List.take_succ_eq_append_getElem hmet, List.sum_append,
      List.sum_singleton, ← Nat.add_assoc, ← h.cursor]
  · cases hother.symm.trans hfront

/-- Behind the damaged records a call answers the record there. -/
theorem answers (h : reader.Amid content met) (hfits : Batch.Fits content reader)
    (hmet : met = (reader.damages content).length) {entry : Entry} {size : Nat}
    (hrecord : front (reader.beyond content) = .record entry size) :
    reader.nextFrom (.file content) = (.ok (some entry),
      { reader with cursor := reader.cursor + size, position := reader.position + size }) := by
  rw [← h.onward_eq_beyond hmet] at hrecord
  rw [h.nextFrom hfits]
  rcases next_cases content reader with ⟨hother, -⟩ | ⟨_, _, hother, -⟩ | ⟨_, _, hother, hnext⟩
  · cases hother.symm.trans hrecord
  · cases hother.symm.trans hrecord
  · cases hother.symm.trans hrecord
    exact hnext

/-- If there is none, it answers none, and the reader stays behind the damaged records or goes back in front of
them. -/
theorem rests (h : reader.Amid content met) (hfits : Batch.Fits content reader)
    (hmet : met = (reader.damages content).length)
    (hrecord : ∀ entry size, front (reader.beyond content) ≠ .record entry size) :
    ∃ cursor truncated other, reader.nextFrom (.file content) = (.ok none, { reader with cursor, truncated }) ∧
      Amid content { reader with cursor, truncated } other := by
  rw [h.nextFrom hfits]
  rcases next_cases content reader with ⟨-, after, hnext, rfl | rfl | rfl⟩ | ⟨size, _, hother, -⟩ |
    ⟨entry, size, hother, -⟩
  · exact ⟨_, _, met, hnext, h⟩
  · exact ⟨_, _, 0, hnext, amid_of_cursor content rfl⟩
  · exact ⟨_, _, 0, hnext, amid_of_cursor content rfl⟩
  · rw [h.front_onward_eq_damaged_iff, hmet, List.getElem?_eq_none (Nat.le_refl _)] at hother
    cases hother
  · exact absurd (h.onward_eq_beyond hmet ▸ hother) (hrecord entry size)

end Amid

end Reader

end Log

/-! ## Sessions over damaged records -/

namespace Session

open Batch

/-- An entry is asked for. The limits of a batch may leave nothing to ask for. -/
def Ask.asks : Ask → Bool
  | entry => true
  | batch _ limits => 0 < limits.count && 0 < limits.size

def Answer.error? : Answer → Option Error
  | entry (.error error) => some error
  | entry (.ok _) => none
  | batch (.error error) => some error
  | batch (.ok _) => none

namespace Ask

variable {content : Bytes} {reader after : Reader} {ask : Ask}

theorem not_reached_of_asks {schema : Schema} {limits : Limits} (h : (Ask.batch schema limits).asks = true) :
    ¬limits.Reached schema [] := by
  rw [asks, Bool.and_eq_true, decide_eq_true_iff, decide_eq_true_iff] at h
  exact not_or.mpr ⟨Nat.not_le.mpr h.1, Nat.not_le.mpr h.2⟩

theorem serve_of_idle (h : ask.asks = false) : (ask.serve content reader).2 = reader := by
  cases ask with
  | entry => cases h
  | batch schema limits =>
    rw [asks, Bool.and_eq_false_iff, decide_eq_false_iff_not, decide_eq_false_iff_not, Nat.not_lt,
      Nat.not_lt] at h
    exact (take_of_reached h).2

theorem serve_of_error {error : Error} (hasks : ask.asks = true)
    (h : reader.nextFrom (.file content) = (.error error, after)) :
    (ask.serve content reader).1.error? = some error ∧ (ask.serve content reader).2 = after := by
  cases ask with
  | entry => simp only [serve, h, Prod.map, id_eq, Answer.error?, and_self]
  | batch schema limits =>
    rw [serve, (take_eq_error_iff (not_reached_of_asks hasks)).mpr h]
    exact ⟨rfl, rfl⟩

theorem serve_of_ok {found : Option Entry} (hasks : ask.asks = true)
    (h : reader.nextFrom (.file content) = (.ok found, after)) : (ask.serve content reader).1.error? = none := by
  cases ask with
  | entry => simp only [serve, h, Prod.map, Answer.error?]
  | batch schema limits =>
    cases htake : take (.file content) schema limits reader with
    | mk outcome middle =>
      cases outcome with
      | ok batch => simp only [serve, htake, Prod.map, Answer.error?]
      | error error =>
        rw [(take_eq_error_iff (not_reached_of_asks hasks)).mp htake] at h
        cases h

theorem serve_of_none (hasks : ask.asks = true) (h : reader.nextFrom (.file content) = (.ok none, after)) :
    (ask.serve content reader).2 = after := by
  cases ask with
  | entry => simp only [serve, h, Prod.map, id_eq]
  | batch schema limits =>
    obtain ⟨hcount, hsize⟩ := not_or.mp (not_reached_of_asks hasks)
    obtain ⟨turns, hturns⟩ := Nat.exists_eq_succ_of_ne_zero (Nat.ne_of_gt (Nat.not_le.mp hcount))
    have hsize : ¬limits.size ≤ (gathered schema reader.position []).heapSize := hsize
    have hgather : gather (.file content) schema limits limits.count (gathered schema reader.position []) reader =
        (.ok { gathered schema reader.position [] with exhausted := true }, after) := by
      rw [hturns, gather, if_neg hsize, h]
    rw [serve, take_eq hgather]
    rfl

end Ask

def asked (session : Session) (asks : List Ask) : Session := session.run (asks.map .ask)

variable {session : Session} {met : Nat}

theorem asked_cons (session : Session) (ask : Ask) (asks : List Ask) :
    session.asked (ask :: asks) = (session.step (.ask ask)).asked asks := rfl

theorem content_asked (session : Session) (asks : List Ask) :
    (session.asked asks).content = session.content := by
  induction asks generalizing session with
  | nil => rfl
  | cons ask asks ih => rw [asked_cons, ih, step]

/-- Each ask for an entry takes one of the damaged records, as long as there are any. -/
theorem reader_asked (h : session.reader.Amid session.content met) (hfits : Fits session.content session.reader)
    (asks : List Ask)
    (hcount : met + asks.countP Ask.asks ≤ (session.reader.damages session.content).length) :
    (session.asked asks).reader = session.reader.past session.content (met + asks.countP Ask.asks) := by
  induction asks generalizing session met with
  | nil => exact h.past_eq.symm
  | cons ask asks ih =>
    rw [asked_cons]
    cases hasks : ask.asks with
    | false =>
      have hidle : session.step (.ask ask) = session := by rw [step, Ask.serve_of_idle hasks]
      rw [List.countP_cons_of_neg (by rw [hasks]; exact Bool.false_ne_true)] at hcount ⊢
      rw [hidle, ih h hfits hcount]
    | true =>
      rw [List.countP_cons_of_pos hasks, Nat.add_comm _ 1, ← Nat.add_assoc] at hcount ⊢
      have hmet : met + 1 ≤ (session.reader.damages session.content).length := by omega
      obtain ⟨detail, hnext⟩ := h.fails hfits hmet
      have hone : session.step (.ask ask) =
          ⟨session.content, session.reader.past session.content (met + 1)⟩ := by
        rw [step, (Ask.serve_of_error hasks hnext).2]
      rw [hone]
      exact ih (Reader.amid_past hmet) hfits hcount

/-- What is asked fails at the position, as long as damaged records are left ahead, and no longer; whether the
position ever moves depends on what lies behind them. -/
structure WearsOff (session : Session) (left : Nat) : Prop where
  position : ∀ asks : List Ask, asks.countP Ask.asks ≤ left →
    (session.asked asks).reader.position = session.reader.position
  fails : ∀ (asks : List Ask) (ask : Ask), ask.asks = true → asks.countP Ask.asks < left →
    ∃ detail, (ask.serve session.content (session.asked asks).reader).1.error? =
      some (session.reader.corrupt detail)
  recovers : ∀ (asks : List Ask) (ask : Ask), ask.asks = true → asks.countP Ask.asks = left →
    (ask.serve session.content (session.asked asks).reader).1.error? = none
  answers : ∀ asks : List Ask, asks.countP Ask.asks = left →
    ∀ entry size, Log.front (session.reader.beyond session.content) = .record entry size →
      (Ask.entry.serve session.content (session.asked asks).reader).1 = .entry (.ok (some entry)) ∧
        (session.asked (asks ++ [.entry])).reader.position = session.reader.position + size
  stays_iff : (∀ asks, (session.asked asks).reader.position = session.reader.position) ↔
    ∀ entry size, Log.front (session.reader.beyond session.content) ≠ .record entry size

theorem asked_concat (session : Session) (asks : List Ask) (ask : Ask) :
    session.asked (asks ++ [ask]) = (session.asked asks).step (.ask ask) := by
  rw [asked, List.map_append]
  exact run_concat ..

/-- Without a record behind the damaged ones, the reader goes round over them. -/
theorem position_asked (h : session.reader.Amid session.content met)
    (hfits : Fits session.content session.reader)
    (hrecord : ∀ entry size, Log.front (session.reader.beyond session.content) ≠ .record entry size)
    (asks : List Ask) :
    (session.asked asks).reader.position = session.reader.position := by
  induction asks generalizing session met with
  | nil => rfl
  | cons ask asks ih =>
    rw [asked_cons]
    cases hasks : ask.asks with
    | false =>
      have hidle : session.step (.ask ask) = session := by rw [step, Ask.serve_of_idle hasks]
      rw [hidle]
      exact ih h hfits hrecord
    | true =>
      rcases Nat.lt_or_eq_of_le h.count with hmet | hmet
      · obtain ⟨detail, hnext⟩ := h.fails hfits hmet
        have hone : session.step (.ask ask) =
            ⟨session.content, session.reader.past session.content (met + 1)⟩ := by
          rw [step, (Ask.serve_of_error hasks hnext).2]
        rw [hone]
        exact ih (Reader.amid_past hmet) hfits hrecord
      · obtain ⟨cursor, truncated, other, hnext, hother⟩ := h.rests hfits hmet hrecord
        have hone : session.step (.ask ask) =
            ⟨session.content, { session.reader with cursor, truncated }⟩ := by
          rw [step, Ask.serve_of_none hasks hnext]
        rw [hone]
        exact ih hother hfits hrecord

theorem wearsOff (h : session.reader.Amid session.content met) (hfits : Fits session.content session.reader) :
    session.WearsOff ((session.reader.damages session.content).length - met) := by
  have hcount := h.count
  have hanswers (asks : List Ask)
      (hall : asks.countP Ask.asks = (session.reader.damages session.content).length - met) (entry : Entry)
      (size : Nat) (hrecord : Log.front (session.reader.beyond session.content) = .record entry size) :
      (Ask.entry.serve session.content (session.asked asks).reader).1 = .entry (.ok (some entry)) ∧
        (session.asked (asks ++ [.entry])).reader.position = session.reader.position + size := by
    have hmet : met + asks.countP Ask.asks = (session.reader.damages session.content).length := by omega
    have hreader := reader_asked h hfits asks (Nat.le_of_eq hmet)
    have hnext := (Reader.amid_past (Nat.le_of_eq hmet)).answers hfits hmet hrecord
    rw [asked_concat, step, content_asked, hreader]
    exact ⟨congrArg Answer.entry (Prod.mk.inj hnext).1, congrArg (·.2.position) hnext⟩
  constructor
  case position =>
    intro asks hle
    rw [reader_asked h hfits asks (by omega)]
    rfl
  case fails =>
    intro asks ask hasks hless
    have hmet : met + asks.countP Ask.asks < (session.reader.damages session.content).length := by omega
    obtain ⟨detail, hnext⟩ := (Reader.amid_past (Nat.le_of_lt hmet)).fails hfits hmet
    rw [reader_asked h hfits asks (Nat.le_of_lt hmet)]
    exact ⟨detail, (Ask.serve_of_error hasks hnext).1⟩
  case recovers =>
    intro asks ask hasks hall
    have hmet : met + asks.countP Ask.asks = (session.reader.damages session.content).length := by omega
    have hbehind := Reader.amid_past (Nat.le_of_eq hmet)
    rw [reader_asked h hfits asks (Nat.le_of_eq hmet)]
    by_cases hrecord : ∃ entry size, Log.front (session.reader.beyond session.content) = .record entry size
    case pos =>
      obtain ⟨entry, size, hrecord⟩ := hrecord
      exact Ask.serve_of_ok hasks (hbehind.answers hfits hmet hrecord)
    case neg =>
      obtain ⟨_, _, _, hnext, -⟩ := hbehind.rests hfits hmet fun entry size hother ↦ hrecord ⟨entry, size, hother⟩
      exact Ask.serve_of_ok hasks hnext
  case answers => exact hanswers
  case stays_iff =>
    refine ⟨fun hstays entry size hrecord ↦ ?_, fun hrecord ↦ position_asked h hfits hrecord⟩
    have hsize := (Log.bounds_of_record hrecord).1
    have hall : (List.replicate ((session.reader.damages session.content).length - met)
        Ask.entry).countP Ask.asks = (session.reader.damages session.content).length - met := by
      rw [List.countP_replicate]
      exact if_pos rfl
    have hmoves := (hanswers _ hall entry size hrecord).2
    rw [hstays] at hmoves
    omega

/-- A call answers the record behind damaged ones. -/
def Skips (session : Session) : Prop :=
  session.reader.damages session.content ≠ [] ∧
    session.reader.Amid session.content (session.reader.damages session.content).length ∧
    ∃ entry size, Log.front (session.reader.beyond session.content) = .record entry size

/-- It can be told what becomes of the reader. -/
def Told (content : Bytes) (reader : Reader) : Prop := (∃ met, reader.Amid content met) ∧ Fits content reader

/-- Any other call leaves a reader of which that can be told so. -/
theorem Told.nextFrom {content : Bytes} {reader : Reader} (h : Told content reader)
    (hskips : ¬Skips ⟨content, reader⟩) : Told content (reader.nextFrom (.file content)).2 := by
  obtain ⟨⟨met, h⟩, hfits⟩ := h
  rcases Nat.lt_or_eq_of_le h.count with hmet | hmet
  · obtain ⟨detail, hnext⟩ := h.fails hfits hmet
    rw [hnext]
    exact ⟨⟨_, Reader.amid_past hmet⟩, hfits⟩
  · by_cases hrecord : ∃ entry size, Log.front (reader.beyond content) = .record entry size
    case neg =>
      obtain ⟨cursor, truncated, other, hnext, hother⟩ :=
        h.rests hfits hmet fun entry size hother ↦ hrecord ⟨entry, size, hother⟩
      rw [hnext]
      exact ⟨⟨other, hother⟩, hfits⟩
    case pos =>
      have hnone : reader.damages content = [] := by
        by_contra hsome
        exact hskips ⟨hsome, hmet ▸ h, hrecord⟩
      obtain ⟨entry, size, hrecord⟩ := hrecord
      have hcursor := h.cursor
      have hsize := (Log.bounds_of_record hrecord).2
      have hlength := Log.length_within_le reader.window
        (content.drop (reader.position + (reader.damages content).sum))
      rw [← Reader.beyond, hnone, List.length_drop, List.sum_nil, Nat.add_zero] at hlength
      rw [hnone, List.take_nil, List.sum_nil, Nat.add_zero] at hcursor
      rw [h.answers hfits hmet hrecord]
      refine ⟨⟨0, Reader.amid_of_cursor _ ?_⟩, ?_⟩
      · rw [hcursor]
      · rw [Fits] at hfits ⊢
        dsimp only
        omega

theorem Told.serve {content : Bytes} {reader : Reader} (h : Told content reader) (ask : Ask)
    (hskips : ∀ visit ∈ ask.visits content reader, ¬Skips ⟨content, visit⟩) :
    Told content (ask.serve content reader).2 := by
  cases ask with
  | entry => exact h.nextFrom (hskips reader List.mem_cons_self)
  | batch schema limits =>
    rw [Ask.serve, take_eq rfl]
    exact gather_induction h fun visit hvisit htold ↦ htold.nextFrom (hskips visit hvisit)

theorem told_asked (h : Told session.content session.reader) (asks : List Ask)
    (hskips : ∀ visit ∈ session.visits (asks.map .ask), ¬visit.Skips) :
    Told session.content (session.asked asks).reader := by
  induction asks generalizing session with
  | nil => exact h
  | cons ask asks ih =>
    rw [List.map_cons, visits, visitsOf] at hskips
    have hserve := h.serve ask fun visit hvisit ↦
      hskips ⟨session.content, visit⟩ (List.mem_append_left _ (List.mem_map_of_mem hvisit))
    exact ih hserve fun visit hvisit ↦ hskips visit (List.mem_append_right _ hvisit)

/-- In every session with a file that stays as it is, what is asked next of the reader fails as long as damaged
records are left ahead, and no longer, unless a call has already answered a record behind damaged ones. -/
theorem wearsOff_or_skipped (content : Bytes) (path : String) (offset : Nat) (limit : Option Nat)
    (asks : List Ask) (hfits : max offset content.length + Reader.block ≤ Reader.maxOffset) :
    let opened : Session := ⟨content, Reader.start path offset limit⟩
    let session := opened.asked asks
    (∃ met, session.reader.Amid content met ∧
      session.WearsOff ((session.reader.damages content).length - met)) ∨
    ∃ visit ∈ opened.visits (asks.map .ask), visit.Skips := by
  intro opened session
  by_cases hskips : ∃ visit ∈ opened.visits (asks.map .ask), visit.Skips
  case pos => exact .inr hskips
  case neg =>
    simp only [not_exists, not_and] at hskips
    have hopened : Told opened.content opened.reader := ⟨⟨0, Reader.amid_of_cursor content rfl⟩, hfits⟩
    obtain ⟨⟨met, hamid⟩, hfits⟩ := told_asked hopened asks hskips
    have hcontent : session.content = content := content_asked ..
    have hwears := @wearsOff session met (by rwa [hcontent]) (by rwa [hcontent])
    rw [hcontent] at hwears
    exact .inl ⟨met, hamid, hwears⟩

/-- A whole frame whose payload is no entry, and a record behind it. -/
def illegibleFirst : Session := ⟨Frame.encode [0x7B, 0x7D] ++ bareEntry.encode, Reader.start "a.wal" 0 none⟩

theorem damages_illegibleFirst : illegibleFirst.reader.damages illegibleFirst.content = [10] := by
  have hfirst : Log.front (Log.within none illegibleFirst.content) = .damaged 10 := by decide +kernel
  have hsecond : Log.front (Log.within none (illegibleFirst.content.drop 10)) = .record bareEntry 63 := by
    decide +kernel
  calc illegibleFirst.reader.damages illegibleFirst.content
      = Log.damages none illegibleFirst.content := rfl
    _ = 10 :: Log.damages none (illegibleFirst.content.drop 10) := Log.damages_of_damaged hfirst
    _ = [10] := by
      rw [Log.damages_of_not_damaged fun size hother ↦ by cases hsecond.symm.trans hother]

theorem fits_illegibleFirst : Fits illegibleFirst.content illegibleFirst.reader := by
  rw [Fits]
  decide +kernel

theorem wearsOff_or_skipped_illegible :
    (∃ detail, (Ask.entry.serve illegibleFirst.content illegibleFirst.reader).1.error? =
      some (illegibleFirst.reader.corrupt detail)) ∧
    ((Ask.batch (.ofNames ["f"]) ⟨1000, 10⟩).serve illegibleFirst.content
      (illegibleFirst.asked [.entry]).reader).1.error? = none := by
  have hsession := wearsOff_or_skipped illegibleFirst.content "a.wal" 0 none [] fits_illegibleFirst
  rcases hsession with ⟨met, hamid, hwears⟩ | ⟨visit, hvisit, -⟩
  · have hcursor : 0 = 0 + ([10].take met).sum := damages_illegibleFirst ▸ hamid.cursor
    have hlength : (illegibleFirst.reader.damages illegibleFirst.content).length - met = 1 := by
      rw [damages_illegibleFirst]
      cases met with
      | zero => rfl
      | succ met =>
        rw [List.take_succ_cons, List.sum_cons] at hcursor
        omega
    have hwears : illegibleFirst.WearsOff 1 := hlength ▸ hwears
    exact ⟨hwears.fails [] .entry rfl Nat.one_pos, hwears.recovers [.entry] _ rfl rfl⟩
  · cases hvisit

/-- The second call goes past the damaged record. -/
theorem answered_behind_illegible :
    (∃ detail, (Ask.entry.serve illegibleFirst.content illegibleFirst.reader).1.error? =
      some (illegibleFirst.reader.corrupt detail)) ∧
    (illegibleFirst.asked [.entry]).reader.position = 0 ∧
    (Ask.entry.serve illegibleFirst.content (illegibleFirst.asked [.entry]).reader).1 =
      .entry (.ok (some bareEntry)) ∧
    (illegibleFirst.asked [.entry, .entry]).reader.position = 63 := by
  have hwears : illegibleFirst.WearsOff 1 := by
    have h := wearsOff (Reader.amid_of_cursor illegibleFirst.content rfl) fits_illegibleFirst
    rwa [damages_illegibleFirst] at h
  have hbeyond : Log.front (illegibleFirst.reader.beyond illegibleFirst.content) = .record bareEntry 63 := by
    rw [Reader.beyond, damages_illegibleFirst]
    decide +kernel
  obtain ⟨hanswer, hposition⟩ := hwears.answers [.entry] rfl bareEntry 63 hbeyond
  exact ⟨hwears.fails [] .entry rfl Nat.one_pos, hwears.position [.entry] (Nat.le_refl 1), hanswer, hposition⟩

end Session

end LogShipping
