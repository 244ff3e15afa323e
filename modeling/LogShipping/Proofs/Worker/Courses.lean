import LogShipping.Proofs.Worker.Delivery
import LogShipping.Proofs.Worker.Post

/-!
# Courses

A course is a run of one worker that goes on without end and that nobody disturbs: the gate is open, the
database can be reached, the worker is not told to stop, and its peer acknowledges what it is sent, if not at
once. Meanwhile time passes, and others may list and write files, take tokens, come and go in the bulkhead and
call peers through the circuits, as long as the worker makes its steps and finds a token and a place there. What
holds at one time of a course and is not undone but by the end that is looked for leads to that end, if some step
brings it about as soon as a certain time has come.
-/

namespace LogShipping.Worker

namespace Turn

/-- Others leave another world behind, and have used the limiter, the bulkhead and the circuits. -/
def elsewhere (turn : Turn) (world : World) (shared : Facilities) : Turn :=
  ⟨world, { shared with node := turn.facilities.node, settings := turn.facilities.settings }, turn.worker⟩

/-- The limiter has a token for the worker. -/
def HasToken (turn : Turn) : Prop :=
  ∀ limiter, turn.facilities.limiter = some limiter → limiter.ready turn.world.now ≤ turn.world.now

/-- The bulkhead has a place for the worker. -/
def HasRoom (turn : Turn) : Prop :=
  (turn.facilities.places.enter turn.worker.key).holds turn.worker.key = true

instance (turn : Turn) : Decidable turn.HasRoom := inferInstanceAs (Decidable (_ = _))

/-- The last time at which the peer's circuit rejects calls, if it is open. -/
def rejectsUntil (turn : Turn) : Nat :=
  match turn.facilities.circuits.entries.find? (·.number == turn.worker.circuit) with
  | none => 0
  | some entry =>
    match entry.circuit.phase with
    | .opened retryAfter => retryAfter
    | _ => 0

/-- The next step learns that the peer has not taken the shipment in: it answers with an error, or does not
answer in time. -/
def fails (turn : Turn) : Bool :=
  match turn.worker.phase with
  | .calling passage =>
    turn.openCall.1 &&
      match (turn.worker.sink.call turn.openCall.2.world passage.shipment).1 with
      | .answered (.error _) => true
      | _ => false
  | .inFlight passage number deadline =>
    match (turn.worker.sink.poll turn.world number passage.shipment).1 with
    | some (.ok _) => false
    | some (.error _) => true
    | none => deadline ≤ turn.world.now
  | _ => false

/-- The next step learns that the peer's circuit rejects the call. -/
def rejected (turn : Turn) : Bool :=
  match turn.worker.phase with
  | .calling _ => !turn.openCall.1
  | _ => false

/-- The next step learns of a failure or a rejection, and the wait that is due after it fits no duration. -/
def overflows (turn : Turn) : Bool :=
  (turn.fails || turn.rejected) && (turn.settings.backoff? (turn.worker.failures + 1)).isNone

/-- Nothing is in the way of the worker. -/
structure Able (turn : Turn) : Prop where
  stays : turn.worker.dismissed = false
  opened : turn.gateOpen = true
  reachable : turn.world.database.reachable = true
  /-- If the worker has to wait now, the wait fits a duration. -/
  patient : turn.overflows = false

namespace Able

variable {turn : Turn} (h : turn.Able)

include h

theorem stays_on : turn.mustStop = false := by
  have hopened := h.opened
  rw [gateOpen, Registry.isOpen, Bool.and_eq_true, Bool.and_eq_true] at hopened
  rw [mustStop, h.stays, hopened.2.1]
  rfl

theorem backoff?_isSome (hdown : (turn.fails || turn.rejected) = true) :
    (turn.settings.backoff? (turn.worker.failures + 1)).isSome = true := by
  have hpatient := h.patient
  rw [overflows, hdown, Bool.true_and, Option.isNone_eq_false_iff] at hpatient
  exact hpatient

end Able

end Turn

namespace Journal

/-- The worker makes a step, or others do something, and the clock does not go back. -/
inductive Proceeds (journal : Journal) : Journal → Prop
  | work : Proceeds journal journal.work
  | elsewhere (world : World) (shared : Facilities)
      (helse : Elsewhere journal.finished journal.scene (journal.turn.elsewhere world shared).scene)
      (hclock : journal.turn.world.now ≤ world.now) :
      Proceeds journal (journal.setTurn (journal.turn.elsewhere world shared))

theorem Proceeds.moves {journal next : Journal} (h : journal.Proceeds next) : journal.Moves next := by
  cases h with
  | work => exact .work journal
  | elsewhere world shared helse => exact .elsewhere journal world _ helse

end Journal

section Course

variable (course : Nat → Journal) (n : Nat)

/-- It is the worker that makes the step. -/
def Works : Prop := course (n + 1) = (course n).work

/-- The worker learns that its shipment was acknowledged. -/
def Arrives : Prop := Works course n ∧ (course n).turn.acknowledges?.isSome = true

/-- The worker learns that its peer has not taken the shipment in. -/
def Fails : Prop := Works course n ∧ (course n).turn.fails = true

/-- The worker has to wait, and the wait fits no duration. -/
def Overflows : Prop := Works course n ∧ (course n).turn.overflows = true

/-- Others open the peer's circuit, or for longer. -/
def Trips : Prop :=
  ¬Works course n ∧ (course n).turn.rejectsUntil < (course (n + 1)).turn.rejectsUntil

/-- From a time on, something comes about. -/
def Comes (P : Turn → Prop) : Prop := ∃ m, n ≤ m ∧ P (course m).turn

end Course

/-- What comes about leads on to what comes about from there on. -/
theorem Comes.trans {course : Nat → Journal} {n : Nat} {P Q : Turn → Prop} (h : Comes course n P)
    (hthen : ∀ m, n ≤ m → P (course m).turn → Comes course m Q) : Comes course n Q := by
  obtain ⟨middle, hle, hthere⟩ := h
  obtain ⟨m, hlater, hdone⟩ := hthen middle hle hthere
  exact ⟨m, Nat.le_trans hle hlater, hdone⟩

/-- Nobody disturbs the worker. -/
structure Unhindered (course : Nat → Journal) : Prop where
  proceeds : ∀ n, (course n).Proceeds (course (n + 1))
  reachable : ∀ n, (course n).turn.world.database.reachable = true
  opened : ∀ n, (course n).turn.gateOpen = true
  /-- Again and again the worker makes a step when there are a token and a place for it. -/
  works : ∀ n, ∃ m, n ≤ m ∧ Works course m ∧ (course m).turn.HasToken ∧ (course m).turn.HasRoom
  clock : ∀ time, ∃ n, time ≤ (course n).turn.world.now
  /-- The peer does not go on to let calls fail, of the worker or of others, and acknowledge none. -/
  yields : ∀ n, ∃ m, n ≤ m ∧
    (Arrives course m ∨ ∀ later, m ≤ later → ¬Fails course later ∧ ¬Trips course later)

namespace Unhindered

variable {course : Nat → Journal} {n : Nat}

theorem turn_of_works (h : Works course n) : (course (n + 1)).turn = step (course n).turn :=
  congrArg Journal.turn h

variable (h : Unhindered course)

include h

theorem leads (n : Nat) : (course 0).Leads (course n) := by
  induction n with
  | zero => exact .refl
  | succ n ih => exact ih.tail (h.proceeds n).moves

theorem next_cases (n : Nat) :
    Works course n ∨ ∃ world shared,
      Elsewhere (course n).finished (course n).scene ((course n).turn.elsewhere world shared).scene ∧
        (course n).turn.world.now ≤ world.now ∧
        course (n + 1) = (course n).setTurn ((course n).turn.elsewhere world shared) := by
  have hproceeds := h.proceeds n
  generalize hnext : course (n + 1) = next at hproceeds
  cases hproceeds with
  | work => exact .inl hnext
  | elsewhere world shared helse hclock => exact .inr ⟨world, shared, helse, hclock, hnext ▸ rfl⟩

/-- What a step of the worker keeps, and others do not touch, holds all the time. -/
theorem holds {P : Turn → Prop} (hopening : P (course 0).turn)
    (hwork : ∀ n, P (course n).turn → P (step (course n).turn))
    (helse : ∀ turn world shared, P turn → P (turn.elsewhere world shared)) (n : Nat) : P (course n).turn := by
  induction n with
  | zero => exact hopening
  | succ n ih =>
    rcases h.next_cases n with hworks | ⟨world, shared, -, -, hnext⟩
    · rw [turn_of_works hworks]
      exact hwork n ih
    · rw [hnext]
      exact helse _ world shared ih

/-- What a worker leaves as it is stays as it was. -/
theorem base_eq (n : Nat) :
    (course n).turn.worker.dismissed = (course 0).turn.worker.dismissed ∧
      (course n).turn.worker.key = (course 0).turn.worker.key ∧
      (course n).turn.settings = (course 0).turn.settings := by
  refine h.holds (P := fun turn ↦ turn.worker.dismissed = (course 0).turn.worker.dismissed ∧
    turn.worker.key = (course 0).turn.worker.key ∧ turn.settings = (course 0).turn.settings) ⟨rfl, rfl, rfl⟩
    (fun n ⟨hstays, hkey, hsettings⟩ ↦ ?_) (fun _ _ _ hturn ↦ hturn) n
  exact ⟨(Turn.dismissed_step _).trans hstays, (congrArg (·.assignment.key) (Turn.post_step _)).trans hkey,
    (Turn.settings_step _).trans hsettings⟩

theorem able (hstays : (course 0).turn.worker.dismissed = false) (hworks : Works course n)
    (hpatient : ¬Overflows course n) : (course n).turn.Able where
  stays := (h.base_eq n).1.trans hstays
  opened := h.opened n
  reachable := h.reachable n
  patient := Bool.eq_false_iff.mpr fun hoverflows ↦ hpatient ⟨hworks, hoverflows⟩

/-- A worker that has stopped is at rest. -/
theorem worker_of_stopped {m : Nat} (hle : n ≤ m) (hstopped : (course n).turn.worker.phase = .stopped) :
    (course m).turn.worker = (course n).turn.worker := by
  induction hle with
  | refl => rfl
  | @step m _ ih =>
    rcases h.next_cases m with hworks | ⟨world, shared, -, -, hnext⟩
    · have hrests : step (course m).turn = (course m).turn := by unfold step; rw [ih, hstopped]
      rw [Nat.succ_eq_add_one, turn_of_works hworks, hrests, ih]
    · rw [Nat.succ_eq_add_one, hnext]
      exact ih

theorem now_le {n m : Nat} (hle : n ≤ m) : (course n).turn.world.now ≤ (course m).turn.world.now := by
  induction hle with
  | refl => exact Nat.le_refl _
  | @step m _ ih =>
    refine Nat.le_trans ih ?_
    rcases h.next_cases m with hworks | ⟨world, shared, -, hclock, hnext⟩
    · exact Nat.le_of_eq (by rw [turn_of_works hworks, Turn.now_step])
    · rw [hnext]
      exact hclock

/-- If `P` stays until `Q` comes, and a step of the worker brings `Q` about once a time has come and there are a
token and room, then `Q` comes. -/
theorem eventually {P Q : Turn → Prop} (time : Nat)
    (helse : ∀ turn world shared, P turn → P (turn.elsewhere world shared))
    (hwork : ∀ m, n ≤ m → Works course m → P (course m).turn →
      P (step (course m).turn) ∨ Q (step (course m).turn))
    (hdue : ∀ m, n ≤ m → Works course m → (course m).turn.HasToken → (course m).turn.HasRoom →
      time ≤ (course m).turn.world.now → P (course m).turn → Q (step (course m).turn))
    (hhere : P (course n).turn) : Comes course n Q := by
  have hstays (m : Nat) (hle : n ≤ m) :
      P (course m).turn ∨ ∃ earlier, n ≤ earlier ∧ Q (course earlier).turn := by
    induction hle with
    | refl => exact .inl hhere
    | @step m hle ih =>
      rcases ih with hthere | hdone
      · rcases h.next_cases m with hworks | ⟨world, shared, -, -, hnext⟩
        · have hnow := turn_of_works hworks
          rcases hwork m hle hworks hthere with hstill | hcomes
          · exact .inl (hnow ▸ hstill)
          · exact .inr ⟨m + 1, Nat.le_succ_of_le hle, hnow ▸ hcomes⟩
        · rw [hnext]
          exact .inl (helse _ world shared hthere)
      · exact .inr hdone
  obtain ⟨late, hlate⟩ := h.clock time
  obtain ⟨m, hle, hworks, htoken, hroom⟩ := h.works (max n late)
  rcases hstays m (by omega) with hthere | hdone
  · have htime : time ≤ (course m).turn.world.now := Nat.le_trans hlate (h.now_le (by omega))
    refine ⟨m + 1, by omega, ?_⟩
    rw [turn_of_works hworks]
    exact hdue m (by omega) hworks htoken hroom htime hthere
  · exact hdone

/-- A worker that waits for a time to come, if for anything, goes on then. -/
theorem comes {P Q : Turn → Prop} (time : Nat)
    (helse : ∀ turn world shared, P turn → P (turn.elsewhere world shared))
    (hstep : ∀ m, n ≤ m → Works course m → P (course m).turn →
      (step (course m).turn = (course m).turn ∧ (course m).turn.world.now < time) ∨ Q (step (course m).turn))
    (hhere : P (course n).turn) : Comes course n Q := by
  refine h.eventually time helse (fun m hle hworks hthere ↦ ?_) (fun m hle hworks _ _ hlate hthere ↦ ?_) hhere
  · rcases hstep m hle hworks hthere with ⟨hwaits, -⟩ | hcomes
    · exact .inl (hwaits.symm ▸ hthere)
    · exact .inr hcomes
  · exact (hstep m hle hworks hthere).resolve_left fun hwaits ↦ Nat.not_le.mpr hwaits.2 hlate

end Unhindered

end LogShipping.Worker
