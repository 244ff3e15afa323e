import LogShipping.Circuit
import Mathlib.Data.List.Induction

/-!
# The history of a circuit

Calls come in and those that were let through end, perhaps one among others. A circuit that was made closed
rejects a call if and only if the end of some call opened it, the time to recover from then on is not over, and
no later call came in after it. All calls that came in since then were rejected.
-/

namespace LogShipping.Circuit

/-- What a circuit lives through: a call comes in, or a call that was let through has ended. -/
inductive Event
  | entered (made : Nat)
  | left (ended : Nat) (failed : Bool)
  deriving Repr, DecidableEq

def undergo (circuit : Circuit) : Event → Circuit
  | .entered made => (circuit.enter made).2
  | .left ended failed => circuit.leave ended failed

def undergoAll (circuit : Circuit) (history : List Event) : Circuit := history.foldl undergo circuit

/-! ## What is counted -/

def Event.isCall : Event → Bool
  | .entered _ => true
  | .left .. => false

def Event.isSuccess : Event → Bool
  | .entered _ => false
  | .left _ failed => !failed

/-- The event is a call that the circuit rejects. -/
def isRejection (circuit : Circuit) : Event → Bool
  | .entered made => circuit.rejectsAt made
  | .left .. => false

/-- How many calls came in. -/
def called (history : List Event) : Nat := history.countP Event.isCall

/-- How many calls have succeeded. -/
def succeeded (history : List Event) : Nat := history.countP Event.isSuccess

/-- How many calls the circuit rejects on the way. -/
def rejected (circuit : Circuit) : List Event → Nat
  | [] => 0
  | event :: history => (circuit.isRejection event).toNat + (circuit.undergo event).rejected history

section Counts

variable (circuit : Circuit) (event : Event) (before history : List Event)

theorem undergoAll_append :
    circuit.undergoAll (before ++ history) = (circuit.undergoAll before).undergoAll history :=
  List.foldl_append

theorem rejected_append :
    circuit.rejected (before ++ history) =
      circuit.rejected before + (circuit.undergoAll before).rejected history := by
  induction before generalizing circuit with
  | nil => exact (Nat.zero_add _).symm
  | cons event before ih =>
    rw [List.cons_append, rejected, rejected, ih, Nat.add_assoc]
    rfl

theorem settings_undergoAll : (circuit.undergoAll history).settings = circuit.settings := by
  induction history generalizing circuit with
  | nil => rfl
  | cons event history ih =>
    refine (ih (circuit.undergo event)).trans ?_
    cases event <;> rfl

theorem rejections_undergoAll :
    (circuit.undergoAll history).rejections = circuit.rejections + circuit.rejected history := by
  induction history generalizing circuit with
  | nil => rfl
  | cons event history ih =>
    have hstep : (circuit.undergo event).rejections = circuit.rejections + (circuit.isRejection event).toNat := by
      cases event with
      | left ended failed => rfl
      | entered made =>
        simp only [undergo, enter, isRejection]
        cases circuit.rejectsAt made <;> rfl
    rw [rejected, ← Nat.add_assoc, ← hstep]
    exact ih (circuit.undergo event)

theorem successes_undergoAll :
    (circuit.undergoAll history).successes = circuit.successes + succeeded history := by
  induction history generalizing circuit with
  | nil => rfl
  | cons event history ih =>
    refine (ih (circuit.undergo event)).trans ?_
    cases event with
    | entered made => rfl
    | left ended failed =>
      cases failed with
      | true => rfl
      | false =>
        rw [succeeded, succeeded, List.countP_cons_of_pos rfl, Nat.add_comm _ 1, ← Nat.add_assoc]
        rfl

end Counts

/-! ## Openings -/

section Phases

variable {circuit : Circuit} {history : List Event} {retryAfter : Nat}

theorem rejectsAt_iff {now : Nat} :
    circuit.rejectsAt now = true ↔ ∃ retryAfter, circuit.phase = .opened retryAfter ∧ now ≤ retryAfter := by
  unfold rejectsAt phaseAt
  cases circuit.phase with
  | closed window => simp
  | probing window => simp
  | opened retryAfter =>
    by_cases hover : retryAfter < now
    · simp [hover]
    · simp [hover, Nat.not_lt.mp hover]

theorem phaseAt_eq_opened_iff {now : Nat} :
    circuit.phaseAt now = .opened retryAfter ↔ circuit.phase = .opened retryAfter ∧ now ≤ retryAfter := by
  unfold phaseAt
  cases circuit.phase with
  | closed window => simp
  | probing window => simp
  | opened other =>
    by_cases hover : other < now
    · simp only [hover, if_true, reduceCtorEq, Phase.opened.injEq, false_iff]
      omega
    · simp only [hover, if_false, Phase.opened.injEq]
      omega

/-- The end of a call opens a circuit for its time to recover, or leaves it open. -/
theorem judge_eq_opened {now : Nat} {failed : Bool} (h : circuit.judge now failed = .opened retryAfter) :
    circuit.phase = .opened retryAfter ∨
      ((∀ other, circuit.phase ≠ .opened other) ∧ retryAfter = now + circuit.settings.recovery) := by
  unfold judge at h
  cases hphase : circuit.phase with
  | opened other =>
    rw [hphase] at h
    exact .inl h
  | closed window =>
    rw [hphase] at h
    dsimp only at h
    split at h
    · exact .inr ⟨by simp, (Phase.opened.inj h).symm⟩
    · cases h
  | probing window =>
    rw [hphase] at h
    dsimp only at h
    repeat' split at h
    all_goals first | exact .inr ⟨by simp, (Phase.opened.inj h).symm⟩ | cases h

/-- While an open circuit has not recovered by the time of a call, it stays open and rejects all calls. -/
theorem stays_opened (hopen : circuit.phase = .opened retryAfter)
    (hearly : ∀ made, .entered made ∈ history → made ≤ retryAfter) :
    (circuit.undergoAll history).phase = .opened retryAfter ∧ circuit.rejected history = called history := by
  induction history generalizing circuit with
  | nil => exact ⟨hopen, rfl⟩
  | cons event history ih =>
    have hlater (made : Nat) (hmem : .entered made ∈ history) : made ≤ retryAfter :=
      hearly made (List.mem_cons_of_mem _ hmem)
    cases event with
    | left ended failed =>
      have hstill : (circuit.leave ended failed).phase = .opened retryAfter := by
        simp [leave, judge, hopen]
      obtain ⟨hphase, hcount⟩ := ih hstill hlater
      refine ⟨hphase, ?_⟩
      rw [rejected, undergo, hcount, called, called, List.countP_cons_of_neg Bool.false_ne_true]
      exact Nat.zero_add _
    | entered made =>
      have hmade := hearly made List.mem_cons_self
      have hstill : (circuit.enter made).2.phase = .opened retryAfter :=
        phaseAt_eq_opened_iff.mpr ⟨hopen, hmade⟩
      obtain ⟨hphase, hcount⟩ := ih hstill hlater
      refine ⟨hphase, ?_⟩
      have hrejects : circuit.rejectsAt made = true := rejectsAt_iff.mpr ⟨_, hopen, hmade⟩
      rw [rejected, undergo, hcount, isRejection, hrejects, called, called, List.countP_cons_of_pos rfl]
      exact Nat.add_comm _ _

end Phases

/-- The end of a call opened the circuit, and it has not recovered since: no call came in after the time to
recover. -/
structure Opening (circuit : Circuit) (history : List Event) where
  before : List Event
  ended : Nat
  failed : Bool
  since : List Event
  splits : history = before ++ .left ended failed :: since
  shut : ∀ other, (circuit.undergoAll before).phase ≠ .opened other
  opens : (circuit.undergoAll before).judge ended failed = .opened (ended + circuit.settings.recovery)
  early : ∀ made, .entered made ∈ since → made ≤ ended + circuit.settings.recovery

namespace Opening

variable {circuit : Circuit} {history : List Event}

/-- The last moment at which the circuit is open for sure. -/
def retryAfter (opening : Opening circuit history) : Nat := opening.ended + circuit.settings.recovery

/-- One event more that leaves the circuit open. -/
def extend (opening : Opening circuit history) (event : Event)
    (h : ∀ made, event = .entered made → made ≤ opening.retryAfter) : Opening circuit (history ++ [event]) :=
  { opening with
    since := opening.since ++ [event]
    splits := (congrArg (· ++ [event]) opening.splits).trans (List.append_assoc _ _ _)
    early := by
      intro made hmem
      rcases List.mem_append.mp hmem with hmem | hmem
      · exact opening.early made hmem
      · exact h made (List.mem_singleton.mp hmem).symm }

theorem phase_undergoAll (opening : Opening circuit history) :
    (circuit.undergoAll history).phase = .opened opening.retryAfter ∧
      circuit.rejected history = circuit.rejected opening.before + called opening.since := by
  have hopen : ((circuit.undergoAll opening.before).leave opening.ended opening.failed).phase =
      .opened opening.retryAfter := opening.opens
  obtain ⟨hphase, hcount⟩ := stays_opened hopen opening.early
  have hrejected := circuit.rejected_append opening.before (.left opening.ended opening.failed :: opening.since)
  rw [← opening.splits, rejected, isRejection, Bool.toNat_false, Nat.zero_add, undergo, hcount] at hrejected
  refine ⟨?_, hrejected⟩
  rw [congrArg circuit.undergoAll opening.splits, undergoAll_append]
  exact hphase

/-- Whenever a circuit is open that was not open at first, some call's end has opened it. -/
theorem exists_of_opened (hshut : ∀ other, circuit.phase ≠ .opened other) {retryAfter : Nat}
    (h : (circuit.undergoAll history).phase = .opened retryAfter) :
    ∃ opening : Opening circuit history, opening.retryAfter = retryAfter := by
  induction history using List.reverseRecOn generalizing retryAfter with
  | nil => exact absurd h (hshut retryAfter)
  | append_singleton history event ih =>
    rw [undergoAll_append] at h
    cases event with
    | entered made =>
      obtain ⟨hopen, hmade⟩ := phaseAt_eq_opened_iff.mp h
      obtain ⟨opening, rfl⟩ := ih hopen
      exact ⟨opening.extend (.entered made) fun _ hsame ↦ Event.entered.inj hsame ▸ hmade, rfl⟩
    | left ended failed =>
      rcases judge_eq_opened h with hopen | ⟨hnot, hafter⟩
      · obtain ⟨opening, rfl⟩ := ih hopen
        exact ⟨opening.extend (.left ended failed) (fun _ hsame ↦ by cases hsame), rfl⟩
      · rw [settings_undergoAll] at hafter
        subst hafter
        exact ⟨⟨history, ended, failed, [], rfl, hnot, h, by simp⟩, rfl⟩

end Opening

/-- A call is rejected if and only if some call's end has opened the circuit and the time to recover from then
on is not over, neither now nor when a later call came in. -/
theorem rejectsAt_undergoAll_iff {circuit : Circuit} (hshut : ∀ other, circuit.phase ≠ .opened other)
    (history : List Event) (now : Nat) :
    (circuit.undergoAll history).rejectsAt now = true ↔
      ∃ opening : Opening circuit history, now ≤ opening.retryAfter := by
  rw [rejectsAt_iff]
  constructor
  · rintro ⟨retryAfter, hopen, hnow⟩
    obtain ⟨opening, rfl⟩ := Opening.exists_of_opened hshut hopen
    exact ⟨opening, hnow⟩
  · rintro ⟨opening, hnow⟩
    exact ⟨_, opening.phase_undergoAll.1, hnow⟩

end LogShipping.Circuit
