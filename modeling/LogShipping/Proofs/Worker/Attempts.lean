import LogShipping.Proofs.Worker.Courses
import LogShipping.Proofs.Worker.Pace
import LogShipping.Proofs.Worker.Stages

/-!
# Attempts to ship a passage

A worker in whose way nothing is tries to ship a passage until the peer has acknowledged it. It waits for tokens
and for a place no longer than until they are there. A circuit that is open rejects calls up to a certain time and
no longer, and a call that goes through is answered, or has failed once its time is up. So if the peer does not let
calls fail for ever, the passage arrives.
-/

namespace LogShipping

/-- A circuit is found as it was put back. -/
theorem PeerCircuits.find?_update {circuits : PeerCircuits} {number : Nat} {entry after : PeerCircuit}
    (hfind : circuits.entries.find? (·.number == number) = some entry) (hafter : after.number = entry.number) :
    (circuits.update after).entries.find? (·.number == number) = some after := by
  have hsame : ((·.number == number) ∘ fun old ↦ if old.number = after.number then after else old) =
      fun old : PeerCircuit ↦ old.number == number := by
    funext old
    rw [Function.comp_apply]
    split
    case isTrue hold => rw [hold]
    case isFalse => rfl
  unfold update
  rw [List.find?_map, hsame, hfind, Option.map_some, if_pos hafter.symm]

namespace Worker

/-- With a passage to ship a worker is on its way to a call, calls the peer, or waits before it tries again. -/
theorem Phase.cases_of_passage {phase : Phase} {passage : Passage} (h : phase.passage? = some passage) :
    phase = .shipping passage ∨ (∃ count, phase = .awaitingTokens passage count) ∨ phase = .awaitingPlace passage ∨
      phase = .calling passage ∨ (∃ number deadline, phase = .inFlight passage number deadline) ∨
      ∃ wake, phase = .backingOff passage wake := by
  unfold passage? at h
  grind

namespace Turn

variable {turn : Turn} {passage : Passage}

/-! ## Circuits -/

/-- A call goes through, or it comes too early. Either way the circuit does not reject calls for longer. -/
theorem openCall_cases (turn : Turn) :
    turn.openCall.2.rejectsUntil ≤ turn.rejectsUntil ∧
      (turn.openCall.1 = true ∨ (turn.openCall.1 = false ∧ turn.world.now ≤ turn.rejectsUntil)) := by
  unfold openCall rejectsUntil
  dsimp only
  cases hfind : turn.facilities.circuits.entries.find? (·.number == turn.worker.circuit) with
  | none =>
    dsimp only
    rw [hfind]
    exact ⟨Nat.le_refl 0, .inl rfl⟩
  | some entry =>
    have hput := PeerCircuits.find?_update hfind
      (show PeerCircuit.number { entry with circuit := (entry.circuit.enter turn.world.now).2 } = entry.number from rfl)
    dsimp only
    rw [hput]
    dsimp only [Circuit.enter, Circuit.rejectsAt, Circuit.phaseAt]
    cases hphase : entry.circuit.phase with
    | closed | probing => exact ⟨Nat.le_refl 0, .inl rfl⟩
    | opened retryAfter =>
      dsimp only
      by_cases hlate : retryAfter < turn.world.now
      case pos =>
        rw [if_pos hlate]
        exact ⟨Nat.zero_le _, .inl rfl⟩
      case neg =>
        rw [if_neg hlate]
        exact ⟨Nat.le_refl _, .inr ⟨rfl, Nat.not_lt.mp hlate⟩⟩

/-! ## Each step -/

/-- The worker waits after a failure. -/
theorem fail_waits (hwait : (turn.settings.backoff? (turn.worker.failures + 1)).isSome = true) (reason : String) :
    ∃ wake, (turn.fail passage reason).worker.phase = .backingOff passage wake ∧
      (turn.fail passage reason).rejectsUntil = turn.rejectsUntil := by
  obtain ⟨delay, hdelay⟩ := Option.isSome_iff_exists.mp hwait
  have hfits : turn.facilities.settings.backoff? (turn.worker.failures + 1) = some delay := hdelay
  refine ⟨turn.world.now + delay, ?_⟩
  unfold fail
  dsimp only
  split
  case h_1 other hother =>
    cases hfits.symm.trans hother
    exact ⟨rfl, rfl⟩
  case h_2 hnone => cases hfits.symm.trans hnone

/-- Without a wait there is no way on. -/
theorem fail_vanishes (hwait : turn.settings.backoff? (turn.worker.failures + 1) = none) (reason : String) :
    (turn.fail passage reason).worker.phase = .stopped := by
  have hnone : turn.facilities.settings.backoff? (turn.worker.failures + 1) = none := hwait
  unfold fail
  dsimp only
  split
  case h_1 other hother => cases hnone.symm.trans hother
  case h_2 => rfl

theorem conclude_vanishes (hwait : turn.settings.backoff? (turn.worker.failures + 1) = none) (error : Error) :
    (turn.conclude passage (.error error)).worker.phase = .stopped := by
  have hsettings : (turn.closeCall true).settings = turn.settings := congrArg Base.settings (base_closeCall turn true)
  rw [← hsettings, ← worker_closeCall turn true] at hwait
  unfold conclude
  split
  case h_1 heq => cases heq
  case h_2 => exact fail_vanishes hwait "timeout"
  case h_3 => exact fail_vanishes hwait "transport"

theorem call_of_overflows (hstays : turn.worker.dismissed = false) (hphase : turn.worker.phase = .calling passage)
    (h : turn.overflows = true) : (turn.call passage).worker.phase = .stopped := by
  rw [overflows, Bool.and_eq_true, Option.isNone_iff_eq_none, Bool.or_eq_true, fails, rejected, hphase] at h
  obtain ⟨hdown, hwait⟩ := h
  have hsettings : turn.openCall.2.settings = turn.settings := congrArg Base.settings (base_openCall turn)
  have hworker := worker_openCall turn
  dsimp only at hdown
  rw [call, hstays, if_neg Bool.false_ne_true]
  rcases hopen : turn.openCall with ⟨admitted, after⟩
  rw [hopen] at hsettings hworker hdown
  rw [← hsettings, ← hworker] at hwait
  cases admitted with
  | false => exact fail_vanishes hwait "circuit_open"
  | true =>
    obtain ⟨before, facilities, worker⟩ := after
    obtain rfl : worker = turn.worker := hworker
    have hfails := hdown.resolve_right Bool.false_ne_true
    dsimp only at hfails ⊢
    rcases hcall : turn.worker.sink.call before passage.shipment with ⟨(error | _) | _, world⟩
    case answered.error =>
      have hgone : (settings ⟨world, facilities, turn.worker⟩).backoff? (turn.worker.failures + 1) = none := hwait
      exact conclude_vanishes hgone error
    case answered.ok | opened =>
      rw [hcall] at hfails
      cases hfails

theorem await_of_overflows (hstays : turn.worker.dismissed = false) {number deadline : Nat}
    (hphase : turn.worker.phase = .inFlight passage number deadline) (h : turn.overflows = true) :
    (turn.await passage number deadline).worker.phase = .stopped := by
  rw [overflows, Bool.and_eq_true, Option.isNone_iff_eq_none, Bool.or_eq_true, fails, rejected, hphase] at h
  obtain ⟨hdown, hwait⟩ := h
  have hfails := hdown.resolve_right Bool.false_ne_true
  dsimp only at hfails
  rw [await, hstays, if_neg Bool.false_ne_true]
  rcases hpoll : turn.worker.sink.poll turn.world number passage.shipment with ⟨_ | (error | _), world⟩
  case some.error =>
    have hgone : (settings { turn with world }).backoff? (turn.worker.failures + 1) = none := hwait
    exact conclude_vanishes hgone error
  case some.ok =>
    rw [hpoll] at hfails
    cases hfails
  case none =>
    have hgone : turn.abandonCall.settings.backoff? (turn.abandonCall.worker.failures + 1) = none := by
      rw [show turn.abandonCall.settings = turn.settings from congrArg Base.settings (base_abandonCall turn),
        worker_abandonCall]
      exact hwait
    rw [hpoll] at hfails
    dsimp only at hfails ⊢
    rw [if_pos (of_decide_eq_true hfails)]
    exact conclude_vanishes hgone _

/-- A worker that would have to wait for longer than any duration is gone, with a passage in its hands. -/
theorem step_of_overflows (hstays : turn.worker.dismissed = false) (h : turn.overflows = true) :
    (∃ passage, turn.worker.phase.passage? = some passage) ∧ (step turn).worker.phase = .stopped := by
  have hdown := (Bool.and_eq_true_iff.mp h).1
  unfold step
  cases hphase : turn.worker.phase with
  | calling passage => exact ⟨⟨passage, rfl⟩, call_of_overflows hstays hphase h⟩
  | inFlight passage number deadline => exact ⟨⟨passage, rfl⟩, await_of_overflows hstays hphase h⟩
  | _ =>
    rw [fails, rejected, hphase] at hdown
    exact absurd hdown Bool.false_ne_true

/-- The call has ended: the passage is through, or the worker waits. -/
theorem conclude_cases (answer : Outcome Unit)
    (hwait : ∀ error, answer = .error error →
      (turn.settings.backoff? (turn.worker.failures + 1)).isSome = true) :
    (answer = .ok () ∧ (turn.conclude passage answer).worker.phase = passage.afterShipping) ∨
      ∃ error, answer = .error error ∧
        ∃ wake, (turn.conclude passage answer).worker.phase = .backingOff passage wake := by
  have hwaits {error : Error} (herror : answer = .error error) (reason : String) :
      ∃ wake, ((turn.closeCall true).fail passage reason).worker.phase = .backingOff passage wake := by
    have hsettings : (turn.closeCall true).settings = turn.settings :=
      congrArg Base.settings (base_closeCall turn true)
    have hfits := hwait error herror
    rw [← hsettings, ← worker_closeCall turn true] at hfits
    obtain ⟨wake, hwake, -⟩ := fail_waits hfits reason
    exact ⟨wake, hwake⟩
  unfold conclude
  split
  case h_1 => exact .inl ⟨rfl, rfl⟩
  case h_2 => exact .inr ⟨_, rfl, hwaits rfl "timeout"⟩
  case h_3 error _ => exact .inr ⟨error, rfl, hwaits rfl "transport"⟩

namespace Able

variable (h : turn.Able)

include h

theorem step_shipping (hphase : turn.worker.phase = .shipping passage) :
    step turn = (turn.goTo (.awaitingTokens passage passage.shipment.edits)).become .shipping := by
  unfold step
  rw [hphase]
  dsimp only
  rw [beginShipping, h.stays_on, if_neg Bool.false_ne_true, if_pos h.opened]

/-- The worker has all its tokens, or takes one, or there is none for it. -/
theorem step_awaitingTokens {count : Nat} (hphase : turn.worker.phase = .awaitingTokens passage count) :
    step turn = turn.goTo (.awaitingPlace passage) ∨ ∃ fewer, count = fewer + 1 ∧
      ((step turn = turn ∧ ¬turn.HasToken) ∨
        ∃ spent, step turn = ({ turn with facilities := { turn.facilities with limiter := some spent } } : Turn).goTo
          (.awaitingTokens passage fewer)) := by
  unfold step
  rw [hphase]
  dsimp only
  cases count with
  | zero => exact .inl rfl
  | succ fewer =>
    rw [takeToken, h.stays, if_neg Bool.false_ne_true]
    split
    case h_1 => exact .inl rfl
    case h_2 limiter hlimiter =>
      refine .inr ⟨fewer, rfl, ?_⟩
      unfold RateLimiter.take
      by_cases hready : limiter.ready turn.world.now ≤ turn.world.now
      case pos =>
        rw [if_pos hready]
        exact .inr ⟨_, rfl⟩
      case neg =>
        rw [if_neg hready]
        exact .inl ⟨rfl, fun htoken ↦ hready (htoken limiter hlimiter)⟩

theorem step_awaitingPlace (hphase : turn.worker.phase = .awaitingPlace passage) :
    ∃ places, step turn = ({ turn with facilities := { turn.facilities with places } } : Turn).goTo
        (if turn.HasRoom then .calling passage else .awaitingPlace passage) := by
  refine ⟨turn.facilities.places.enter turn.worker.key, ?_⟩
  unfold step
  rw [hphase]
  dsimp only
  rw [takePlace, h.stays, if_neg Bool.false_ne_true]
  dsimp only
  by_cases hroom : turn.HasRoom
  case pos => rw [if_pos hroom, if_pos (show _ = true from hroom)]
  case neg =>
    rw [if_neg hroom, if_neg (show ¬_ = true from hroom), ← hphase]
    rfl

theorem step_backingOff {wake : Nat} (hphase : turn.worker.phase = .backingOff passage wake) :
    (step turn = turn ∧ turn.world.now < wake) ∨ step turn = turn.leavePlace.goTo (.shipping passage) := by
  unfold step
  rw [hphase]
  dsimp only
  rw [h.stays_on, if_neg Bool.false_ne_true]
  split
  case isTrue => exact .inr rfl
  case isFalse hearly =>
    rw [waited, Bool.or_eq_true, decide_eq_true_eq] at hearly
    exact .inl ⟨rfl, Nat.not_le.mp fun hle ↦ hearly (.inl hle)⟩

/-- The peer answers at once, or the call is open, or the worker waits, for a failure or for a rejection. -/
theorem step_calling (hphase : turn.worker.phase = .calling passage) :
    (turn.acknowledges? = some passage.shipment ∧ (step turn).worker.phase = passage.afterShipping) ∨
    (turn.acknowledges? = none ∧
      (((∃ number deadline, (step turn).worker.phase = .inFlight passage number deadline) ∧
          (step turn).rejectsUntil ≤ turn.rejectsUntil) ∨
        ∃ wake, (step turn).worker.phase = .backingOff passage wake ∧
          (turn.fails = true ∨
            (turn.world.now ≤ turn.rejectsUntil ∧ (step turn).rejectsUntil ≤ turn.rejectsUntil)))) := by
  have hsettings : turn.openCall.2.settings = turn.settings := congrArg Base.settings (base_openCall turn)
  have hworker := worker_openCall turn
  have hcases := openCall_cases turn
  have hwait := h.backoff?_isSome
  unfold rejected at hwait
  unfold step acknowledges?
  unfold fails at *
  rw [hphase] at hwait ⊢
  dsimp only at hwait ⊢
  rw [call, h.stays, if_neg Bool.false_ne_true, Bool.false_or]
  rcases hopen : turn.openCall with ⟨admitted, after⟩
  rw [hopen] at hsettings hworker hcases hwait
  cases admitted with
  | false =>
    have hfits := hwait rfl
    rw [← hsettings, ← hworker] at hfits
    obtain ⟨wake, hwake, hsame⟩ := fail_waits hfits "circuit_open"
    have hearly : turn.world.now ≤ turn.rejectsUntil := (hcases.2.resolve_left Bool.false_ne_true).2
    exact .inr ⟨rfl, .inr ⟨wake, hwake, .inr ⟨hearly, Nat.le_trans (Nat.le_of_eq hsame) hcases.1⟩⟩⟩
  | true =>
    obtain ⟨before, facilities, worker⟩ := after
    obtain rfl : worker = turn.worker := hworker
    dsimp only at hwait ⊢
    rcases hcall : turn.worker.sink.call before passage.shipment with ⟨answer | number, world⟩
    case opened => exact .inr ⟨rfl, .inl ⟨⟨_, _, rfl⟩, hcases.1⟩⟩
    case answered =>
      have hcalled : settings ⟨world, facilities, turn.worker⟩ = turn.settings := hsettings
      have hfits (error : Error) (herror : answer = .error error) :
          ((settings ⟨world, facilities, turn.worker⟩).backoff? (turn.worker.failures + 1)).isSome = true := by
        subst herror
        rw [hcalled]
        exact hwait (by rw [hcall]; rfl)
      rcases @conclude_cases ⟨world, facilities, turn.worker⟩ passage answer hfits with
        ⟨rfl, hdone⟩ | ⟨error, rfl, wake, hwake⟩
      · exact .inl ⟨rfl, hdone⟩
      · exact .inr ⟨rfl, .inr ⟨wake, hwake, .inl rfl⟩⟩

/-- The peer answers, or the worker waits for a failure, or goes on waiting for the answer. -/
theorem step_inFlight {number deadline : Nat} (hphase : turn.worker.phase = .inFlight passage number deadline) :
    (turn.acknowledges? = some passage.shipment ∧ (step turn).worker.phase = passage.afterShipping) ∨
    (turn.acknowledges? = none ∧
      ((step turn = turn ∧ turn.world.now < deadline) ∨
        ∃ wake, (step turn).worker.phase = .backingOff passage wake ∧ turn.fails = true)) := by
  have hwait := h.backoff?_isSome
  unfold step acknowledges?
  unfold fails at *
  rw [hphase] at hwait ⊢
  dsimp only at hwait ⊢
  rw [await, h.stays, if_neg Bool.false_ne_true, if_neg Bool.false_ne_true]
  rcases hpoll : turn.worker.sink.poll turn.world number passage.shipment with ⟨_ | answer, world⟩
  case none =>
    refine .inr ⟨rfl, ?_⟩
    dsimp only
    split
    case isFalse hearly => exact .inl ⟨rfl, Nat.not_le.mp hearly⟩
    case isTrue hlate =>
      have hfits : (turn.abandonCall.settings.backoff? (turn.abandonCall.worker.failures + 1)).isSome = true := by
        rw [show turn.abandonCall.settings = turn.settings from congrArg Base.settings (base_abandonCall turn),
          worker_abandonCall]
        exact hwait (by rw [hpoll, decide_eq_true hlate, Bool.true_or])
      rcases conclude_cases (turn.overdue passage) (fun _ _ ↦ hfits) with ⟨hok, -⟩ | ⟨_, -, wake, hwake⟩
      · cases hok
      · exact .inr ⟨wake, hwake, decide_eq_true hlate⟩
  case some =>
    have hfits (error : Error) (herror : answer = .error error) :
        ((settings { turn with world }).backoff? (turn.worker.failures + 1)).isSome = true := by
      subst herror
      exact hwait (by rw [hpoll, Bool.true_or])
    rcases @conclude_cases { turn with world } passage answer hfits with
      ⟨rfl, hdone⟩ | ⟨error, rfl, wake, hwake⟩
    · exact .inl ⟨rfl, hdone⟩
    · exact .inr ⟨rfl, .inr ⟨wake, hwake, rfl⟩⟩

/-- A worker with a passage to ship keeps it until it learns that the passage was acknowledged. Unless the call fails,
the circuit does not reject calls for longer. -/
theorem step_of_passage (hpassage : turn.worker.phase.passage? = some passage) :
    (turn.acknowledges? = some passage.shipment ∧ (step turn).worker.phase = passage.afterShipping) ∨
      (turn.acknowledges? = none ∧ (step turn).worker.phase.passage? = some passage ∧
        (turn.fails = true ∨ (step turn).rejectsUntil ≤ turn.rejectsUntil)) := by
  rcases Phase.cases_of_passage hpassage with
    hphase | ⟨count, hphase⟩ | hphase | hphase | ⟨number, deadline, hphase⟩ | ⟨wake, hphase⟩
  · refine .inr ⟨by rw [acknowledges?, hphase], ?_⟩
    rw [h.step_shipping hphase]
    exact ⟨rfl, .inr (Nat.le_refl _)⟩
  · refine .inr ⟨by rw [acknowledges?, hphase], ?_⟩
    rcases h.step_awaitingTokens hphase with hstep | ⟨_, -, ⟨hstep, -⟩ | ⟨_, hstep⟩⟩
    · rw [hstep]
      exact ⟨rfl, .inr (Nat.le_refl _)⟩
    · rw [hstep, hphase]
      exact ⟨rfl, .inr (Nat.le_refl _)⟩
    · rw [hstep]
      exact ⟨rfl, .inr (Nat.le_refl _)⟩
  · refine .inr ⟨by rw [acknowledges?, hphase], ?_⟩
    obtain ⟨places, hstep⟩ := h.step_awaitingPlace hphase
    rw [hstep, phase_goTo]
    refine ⟨?_, .inr (Nat.le_refl _)⟩
    split <;> rfl
  · rcases h.step_calling hphase with hdone | ⟨hnone, ⟨⟨_, _, hopen⟩, hcircuit⟩ | ⟨_, hwaits, hfails⟩⟩
    · exact .inl hdone
    · exact .inr ⟨hnone, by rw [hopen]; rfl, .inr hcircuit⟩
    · exact .inr ⟨hnone, by rw [hwaits]; rfl, hfails.imp_right And.right⟩
  · rcases h.step_inFlight hphase with hdone | ⟨hnone, ⟨hstep, -⟩ | ⟨_, hwaits, hfails⟩⟩
    · exact .inl hdone
    · exact .inr ⟨hnone, by rw [hstep, hphase]; rfl, .inr (Nat.le_of_eq (congrArg rejectsUntil hstep))⟩
    · exact .inr ⟨hnone, by rw [hwaits]; rfl, .inl hfails⟩
  · refine .inr ⟨by rw [acknowledges?, hphase], ?_⟩
    rcases h.step_backingOff hphase with ⟨hstep, -⟩ | hstep
    · rw [hstep, hphase]
      exact ⟨rfl, .inr (Nat.le_refl _)⟩
    · rw [hstep]
      exact ⟨rfl, .inr (Nat.le_refl _)⟩

end Able

end Turn

/-! ## Attempts along a course -/

namespace Unhindered

variable {course : Nat → Journal} {passage : Passage} {n : Nat}

/-- The worker is in a phase. -/
def In (phase : Phase) (turn : Turn) : Prop := turn.worker.phase = phase

/-- The peer is called with the passage, or has been. -/
def Calls (passage : Passage) (turn : Turn) : Prop :=
  In (.calling passage) turn ∨ ∃ number deadline, In (.inFlight passage number deadline) turn

/-- The worker has shipped the passage. -/
def Past (passage : Passage) (turn : Turn) : Prop := turn.worker.phase = passage.afterShipping

variable (h : Unhindered course) (hable : ∀ n, Works course n → (course n).turn.Able)

include h hable

theorem reaches_tokens (hhere : In (.shipping passage) (course n).turn) :
    Comes course n (In (.awaitingTokens passage passage.shipment.edits)) := by
  refine h.comes 0 (fun _ _ _ hthere ↦ hthere) (fun m _ hworks hthere ↦ .inr ?_) hhere
  rw [(hable m hworks).step_shipping hthere]
  rfl

/-- All tokens are taken some time, as there is one for the worker again and again. -/
theorem reaches_place {count : Nat} (hhere : In (.awaitingTokens passage count) (course n).turn) :
    Comes course n (In (.awaitingPlace passage)) := by
  induction count using Nat.strongRecOn generalizing n with
  | ind count ih =>
    have hnext : Comes course n fun turn ↦ In (.awaitingPlace passage) turn ∨
        ∃ fewer < count, In (.awaitingTokens passage fewer) turn := by
      have hstep {m : Nat} (hworks : Works course m) (hthere : In (.awaitingTokens passage count) (course m).turn) :
          (step (course m).turn = (course m).turn ∧ ¬(course m).turn.HasToken) ∨
            In (.awaitingPlace passage) (step (course m).turn) ∨
              ∃ fewer < count, In (.awaitingTokens passage fewer) (step (course m).turn) := by
        rcases (hable m hworks).step_awaitingTokens hthere with hstep | ⟨fewer, rfl, hwaits | ⟨spent, hstep⟩⟩
        · exact .inr (.inl (hstep ▸ rfl))
        · exact .inl hwaits
        · exact .inr (.inr ⟨fewer, Nat.lt_succ_self fewer, hstep ▸ rfl⟩)
      refine h.eventually 0 (fun _ _ _ hthere ↦ hthere) (fun m _ hworks hthere ↦ ?_)
        (fun m _ hworks htoken _ _ hthere ↦ ?_) hhere
      · rcases hstep hworks hthere with ⟨hwaits, -⟩ | hcomes
        · exact .inl (hwaits.symm ▸ hthere)
        · exact .inr hcomes
      · exact (hstep hworks hthere).resolve_left fun hwaits ↦ hwaits.2 htoken
    refine hnext.trans fun m _ hthere ↦ ?_
    rcases hthere with hplace | ⟨fewer, hlt, htokens⟩
    · exact ⟨m, Nat.le_refl m, hplace⟩
    · exact ih fewer hlt htokens

theorem reaches_calling (hhere : In (.awaitingPlace passage) (course n).turn) :
    Comes course n (In (.calling passage)) := by
  have hstep {m : Nat} (hworks : Works course m) (hthere : In (.awaitingPlace passage) (course m).turn) :
      In (if (course m).turn.HasRoom then .calling passage else .awaitingPlace passage) (step (course m).turn) := by
    obtain ⟨places, hstep⟩ := (hable m hworks).step_awaitingPlace hthere
    rw [hstep]
    rfl
  refine h.eventually 0 (fun _ _ _ hthere ↦ hthere) (fun m _ hworks hthere ↦ ?_)
    (fun m _ hworks _ hroom _ hthere ↦ ?_) hhere
  · have hnext := hstep hworks hthere
    split at hnext
    case isTrue => exact .inr hnext
    case isFalse => exact .inl hnext
  · have hnext := hstep hworks hthere
    rwa [if_pos hroom] at hnext

theorem reaches_shipping {wake : Nat} (hhere : In (.backingOff passage wake) (course n).turn) :
    Comes course n (In (.shipping passage)) := by
  refine h.comes wake (fun _ _ _ hthere ↦ hthere) (fun m _ hworks hthere ↦ ?_) hhere
  refine ((hable m hworks).step_backingOff hthere).imp_right fun hstep ↦ ?_
  rw [hstep]
  rfl

/-- Whatever the worker has to wait for, the peer is called, unless it has been. -/
theorem reaches_call (hhere : (course n).turn.worker.phase.passage? = some passage) :
    Comes course n (Calls passage) := by
  have hof_tokens {k count : Nat} (hthere : In (.awaitingTokens passage count) (course k).turn) :
      Comes course k (In (.calling passage)) :=
    (h.reaches_place hable hthere).trans fun _ _ ↦ h.reaches_calling hable
  have hof_shipping {k : Nat} (hthere : In (.shipping passage) (course k).turn) :
      Comes course k (In (.calling passage)) :=
    (h.reaches_tokens hable hthere).trans fun _ _ ↦ hof_tokens
  have hcalls (hcomes : Comes course n (In (.calling passage))) : Comes course n (Calls passage) :=
    hcomes.trans fun m _ hthere ↦ ⟨m, Nat.le_refl m, .inl hthere⟩
  rcases Phase.cases_of_passage hhere with
    hphase | ⟨count, hphase⟩ | hphase | hphase | ⟨number, deadline, hphase⟩ | ⟨wake, hphase⟩
  · exact hcalls (hof_shipping hphase)
  · exact hcalls (hof_tokens hphase)
  · exact hcalls (h.reaches_calling hable hphase)
  · exact ⟨n, Nat.le_refl n, .inl hphase⟩
  · exact ⟨n, Nat.le_refl n, .inr ⟨number, deadline, hphase⟩⟩
  · exact hcalls ((h.reaches_shipping hable hphase).trans fun _ _ ↦ hof_shipping)

/-- The worker keeps a passage until it is past it. The circuit rejects calls for longer only if one has failed. -/
theorem keeps_step (hhere : (course n).turn.worker.phase.passage? = some passage) :
    Past passage (course (n + 1)).turn ∨
      ((course (n + 1)).turn.worker.phase.passage? = some passage ∧
        (Fails course n ∨ Trips course n ∨ (course (n + 1)).turn.rejectsUntil ≤ (course n).turn.rejectsUntil)) := by
  by_cases hworks : Works course n
  case pos =>
    rw [turn_of_works hworks]
    rcases (hable n hworks).step_of_passage hhere with ⟨-, hdone⟩ | ⟨-, hkept, hfails | hcircuit⟩
    · exact .inl hdone
    · exact .inr ⟨hkept, .inl ⟨hworks, hfails⟩⟩
    · exact .inr ⟨hkept, .inr (.inr hcircuit)⟩
  case neg =>
    obtain ⟨world, shared, -, -, hnext⟩ := (h.next_cases n).resolve_left hworks
    refine .inr ⟨by rw [hnext]; exact hhere, .inr ?_⟩
    by_cases hlonger : (course n).turn.rejectsUntil < (course (n + 1)).turn.rejectsUntil
    case pos => exact .inl ⟨hworks, hlonger⟩
    case neg => exact .inr (Nat.not_lt.mp hlonger)

/-- The worker keeps a passage, unless it learns some time that the passage was acknowledged. -/
theorem keeps_or_arrives {m : Nat} (hle : n ≤ m) (hhere : (course n).turn.worker.phase.passage? = some passage) :
    (course m).turn.worker.phase.passage? = some passage ∨ Comes course n (Past passage) := by
  induction hle with
  | refl => exact .inl hhere
  | @step m hle ih =>
    rcases ih with hkept | hdone
    · rcases h.keeps_step hable hkept with hpast | ⟨hstill, -⟩
      · exact .inr ⟨m + 1, Nat.le_succ_of_le hle, hpast⟩
      · exact .inl hstill
    · exact .inr hdone

/-! ### When calls fail no more -/

section Quiet

variable (hquiet : ∀ later, n ≤ later → ¬Fails course later ∧ ¬Trips course later)

include hquiet

/-- An open call is answered before its time is up. -/
theorem arrives_of_inFlight {m number deadline : Nat} (hle : n ≤ m)
    (hhere : In (.inFlight passage number deadline) (course m).turn) : Comes course m (Past passage) := by
  refine h.comes deadline (fun _ _ _ hthere ↦ hthere) (fun k hfrom hworks hthere ↦ ?_) hhere
  rcases (hable k hworks).step_inFlight hthere with ⟨-, hdone⟩ | ⟨-, hwaits | ⟨_, -, hfails⟩⟩
  · exact .inr hdone
  · exact .inl hwaits
  · exact absurd ⟨hworks, hfails⟩ (hquiet k (Nat.le_trans hle hfrom)).1

/-- While the worker keeps a passage, the circuit does not reject calls for longer. -/
theorem rejectsUntil_le {m : Nat} (hnever : ¬Comes course n (Past passage)) (hle : n ≤ m)
    (hhere : (course n).turn.worker.phase.passage? = some passage) :
    (course m).turn.rejectsUntil ≤ (course n).turn.rejectsUntil := by
  induction hle with
  | refl => exact Nat.le_refl _
  | @step m hle ih =>
    have hkept := (h.keeps_or_arrives hable hle hhere).resolve_right hnever
    obtain ⟨hfails, htrips⟩ := hquiet m hle
    rcases h.keeps_step hable hkept with hpast | ⟨-, hfailed | htripped | hcircuit⟩
    · exact absurd ⟨m + 1, Nat.le_succ_of_le hle, hpast⟩ hnever
    · exact absurd hfailed hfails
    · exact absurd htripped htrips
    · exact Nat.le_trans hcircuit ih

/-- Once the circuit rejects calls no more, a call goes through. -/
theorem arrives_of_calling {m : Nat} (hle : n ≤ m)
    (hcircuit : ∀ k, m ≤ k → (course k).turn.rejectsUntil < (course k).turn.world.now)
    (hhere : In (.calling passage) (course m).turn) : Comes course m (Past passage) := by
  have hnext : Comes course m fun turn ↦ Past passage turn ∨
      ∃ number deadline, In (.inFlight passage number deadline) turn := by
    refine h.comes 0 (fun _ _ _ hthere ↦ hthere) (fun k hfrom hworks hthere ↦ .inr ?_) hhere
    rcases (hable k hworks).step_calling hthere with ⟨-, hdone⟩ | ⟨-, ⟨hopen, -⟩ | ⟨_, -, hfails | ⟨hearly, -⟩⟩⟩
    · exact .inl hdone
    · exact .inr hopen
    · exact absurd ⟨hworks, hfails⟩ (hquiet k (Nat.le_trans hle hfrom)).1
    · exact absurd hearly (Nat.not_le.mpr (hcircuit k hfrom))
  refine hnext.trans fun k hfrom hthere ↦ ?_
  rcases hthere with hdone | ⟨number, deadline, hopen⟩
  · exact ⟨k, Nat.le_refl k, hdone⟩
  · exact h.arrives_of_inFlight hable hquiet (Nat.le_trans hle hfrom) hopen

theorem arrives_of_quiet (hhere : (course n).turn.worker.phase.passage? = some passage) :
    Comes course n (Past passage) := by
  by_contra hnever
  -- If the passage never arrived, the time would come at which the circuit rejects calls no more.
  obtain ⟨late, hlate⟩ := h.clock ((course n).turn.rejectsUntil + 1)
  have hcircuit (k : Nat) (hfrom : max n late ≤ k) : (course k).turn.rejectsUntil < (course k).turn.world.now := by
    have hcircuit := h.rejectsUntil_le hable hquiet hnever (Nat.le_trans (Nat.le_max_left n late) hfrom) hhere
    have htime := h.now_le (Nat.le_trans (Nat.le_max_right n late) hfrom)
    omega
  have hkept := (h.keeps_or_arrives hable (Nat.le_max_left n late) hhere).resolve_right hnever
  have harrives : Comes course (max n late) (Past passage) := by
    refine (h.reaches_call hable hkept).trans fun m hfrom hthere ↦ ?_
    have hle : n ≤ m := Nat.le_trans (Nat.le_max_left n late) hfrom
    rcases hthere with hcalling | ⟨number, deadline, hopen⟩
    · exact h.arrives_of_calling hable hquiet hle (fun k hk ↦ hcircuit k (Nat.le_trans hfrom hk)) hcalling
    · exact h.arrives_of_inFlight hable hquiet hle hopen
  obtain ⟨m, hfrom, hdone⟩ := harrives
  exact hnever ⟨m, Nat.le_trans (Nat.le_max_left n late) hfrom, hdone⟩

end Quiet

/-- A passage that the worker tries to ship arrives. -/
theorem arrives (hhere : (course n).turn.worker.phase.passage? = some passage) :
    Comes course n (Past passage) := by
  obtain ⟨m, hle, hyields⟩ := h.yields n
  rcases h.keeps_or_arrives hable hle hhere with hkept | hdone
  case inr => exact hdone
  case inl =>
    rcases hyields with ⟨hworks, hanswer⟩ | hquiet
    · rcases (hable m hworks).step_of_passage hkept with ⟨-, hdone⟩ | ⟨hnone, -⟩
      · exact ⟨m + 1, Nat.le_succ_of_le hle, turn_of_works hworks ▸ hdone⟩
      · rw [hnone] at hanswer
        cases hanswer
    · obtain ⟨later, hlater, hdone⟩ := h.arrives_of_quiet hable hquiet hkept
      exact ⟨later, Nat.le_trans hle hlater, hdone⟩

end Unhindered

end Worker

end LogShipping
