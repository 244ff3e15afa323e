import LogShipping.Proofs.Worker.Courses
import LogShipping.Proofs.Worker.Gates
import LogShipping.Proofs.Worker.Holdings

/-!
# Workers that are left to themselves

A worker makes a step, a while passes, and so on, while nobody else does anything. If its gate is open, the
database can be reached, there is no limiter and no other worker is in the bulkhead, nobody disturbs it then. For
the behaviour that is laid down for its remote cluster is used up call by call, and once nothing is laid down any
more the cluster accepts.
-/

namespace LogShipping

open Log

/-! ## Remote clusters -/

namespace Remote

variable (remote : Remote) (behaviour : Behaviour) (shipment : Shipment) (number : Nat)

theorem settle_eq : (remote.settle behaviour shipment).2.name = remote.name ∧
    (remote.settle behaviour shipment).2.script = remote.script := by
  cases behaviour <;> exact ⟨rfl, rfl⟩

/-- A call uses up the behaviour that is laid down for it. -/
theorem call_eq : (remote.call shipment).2.name = remote.name ∧
    (remote.call shipment).2.script = remote.script.tail := by
  unfold call
  dsimp only
  split
  case isTrue => exact settle_eq _ _ shipment
  case isFalse => exact settle_eq _ _ shipment

theorem call_of_nil (h : remote.script = []) : (remote.call shipment).1 = some (.ok ()) := by
  unfold call
  rw [h]
  rfl

theorem poll_eq : (remote.poll number shipment).2.name = remote.name ∧
    (remote.poll number shipment).2.script = remote.script := by
  unfold poll
  split
  case h_1 => exact ⟨rfl, rfl⟩
  case h_2 behaviour _ => exact settle_eq _ behaviour shipment

end Remote

namespace World

theorem name_remote (world : World) (name : String) : (world.remote name).name = name := by
  unfold remote
  cases hfind : world.remotes.find? (·.name == name) with
  | none => rfl
  | some found =>
    have hfound := List.find?_some hfind
    exact beq_iff_eq.mp hfound

theorem remote_setRemote (world : World) {remote : Remote} {name : String} (h : remote.name = name) :
    (world.setRemote remote).remote name = remote := by
  unfold setRemote World.remote
  simp only [List.find?_cons, h, beq_self_eq_true, Option.getD_some]

end World

namespace Worker

namespace Turn

/-! ## What is laid down for the peer -/

/-- The behaviour that is laid down for the next calls of the worker. -/
def script (turn : Turn) : List Remote.Behaviour :=
  match turn.worker.sink with
  | .remote name => (turn.world.remote name).script
  | .stream _ => []

section Frame

variable (turn : Turn) (passage : Passage)

@[simp] theorem script_abandonCall : turn.abandonCall.script = turn.script := by
  unfold abandonCall
  split
  case h_1 passage number deadline _ =>
    unfold script Sink.abandon
    dsimp only
    cases turn.worker.sink with
    | remote name =>
      have hname : ((turn.world.remote name).abandon number).name = name := turn.world.name_remote name
      have hput := turn.world.remote_setRemote hname
      dsimp only
      rw [hput]
      rfl
    | stream _ => rfl
  case h_2 => rfl

@[simp] theorem script_vanish : turn.vanish.script = turn.script := script_abandonCall turn

@[simp] theorem script_stop : turn.stop.script = turn.script := script_vanish turn

@[simp] theorem script_closeCall (failed : Bool) : (turn.closeCall failed).script = turn.script := by
  unfold closeCall
  dsimp only
  split <;> rfl

@[simp] theorem script_openCall : turn.openCall.2.script = turn.script := by
  unfold openCall
  dsimp only
  split <;> rfl

theorem script_callSink {name : String} (hsink : turn.worker.sink = .remote name) (shipment : Shipment) :
    script { turn with world := (turn.worker.sink.call turn.world shipment).2 } = turn.script.tail := by
  obtain ⟨hname, hscript⟩ := (turn.world.remote name).call_eq shipment
  have hput := turn.world.remote_setRemote (hname.trans (turn.world.name_remote name))
  have hcalled : script { turn with world := (turn.worker.sink.call turn.world shipment).2 } =
      ((turn.world.remote name).call shipment).2.script := by
    rw [← hput]
    unfold script Sink.call
    rw [hsink]
    dsimp only
    split
    case h_1 hcall => rw [hcall]
    case h_2 hcall => rw [hcall]
  rw [hcalled, hscript, script, hsink]

theorem script_pollSink {name : String} (hsink : turn.worker.sink = .remote name) (number : Nat)
    (shipment : Shipment) :
    script { turn with world := (turn.worker.sink.poll turn.world number shipment).2 } = turn.script := by
  obtain ⟨hname, hscript⟩ := (turn.world.remote name).poll_eq shipment number
  have hput := turn.world.remote_setRemote (hname.trans (turn.world.name_remote name))
  unfold script Sink.poll
  rw [hsink]
  dsimp only
  rw [← hscript]
  exact congrArg Remote.script hput

theorem script_fail (reason : String) : (turn.fail passage reason).script = turn.script := by
  unfold fail
  dsimp only
  split
  case h_1 => rfl
  case h_2 => exact script_vanish _

theorem script_conclude (answer : Outcome Unit) : (turn.conclude passage answer).script = turn.script := by
  unfold conclude
  split
  case h_1 => exact script_closeCall turn false
  case h_2 => exact (script_fail (turn.closeCall true) passage "timeout").trans (script_closeCall turn true)
  case h_3 => exact (script_fail (turn.closeCall true) passage "transport").trans (script_closeCall turn true)

theorem script_checkGate : turn.checkGate.script = turn.script := by
  unfold checkGate
  split
  case isTrue => exact script_stop turn
  case isFalse => split <;> rfl

theorem script_load : turn.load.script = turn.script := by
  unfold load
  dsimp only
  split
  case h_1 => rfl
  case h_2 => exact script_stop _
  case h_3 => split <;> rfl

theorem script_takeBatch (file : FileRef) (closed hasNext : Bool) (batch : Batch) :
    (turn.takeBatch file closed hasNext batch).script = turn.script := by
  unfold takeBatch
  dsimp only
  show script (if _ then _ else _) = _
  split <;> rfl

theorem script_read (file : FileRef) (offset : Nat) (hasNext : Bool) :
    (turn.read file offset hasNext).script = turn.script := by
  unfold read
  dsimp only
  split
  case h_1 => split <;> rfl
  case h_2 => rfl
  case h_3 =>
    split
    case h_1 => exact script_takeBatch turn _ _ _ _
    case h_2 => rfl
    case h_3 => rfl

theorem script_beginShipping : (turn.beginShipping passage).script = turn.script := by
  unfold beginShipping
  split
  case isTrue => exact script_stop turn
  case isFalse => split <;> rfl

theorem script_takeToken (count : Nat) : (turn.takeToken passage count).script = turn.script := by
  cases count with
  | zero => rfl
  | succ count =>
    rw [takeToken]
    split
    case isTrue => exact script_stop turn
    case isFalse =>
      split
      case h_1 => rfl
      case h_2 => split <;> rfl

theorem script_takePlace : (turn.takePlace passage).script = turn.script := by
  unfold takePlace
  split
  case isTrue => exact script_stop turn
  case isFalse =>
    dsimp only
    split <;> rfl

theorem script_await {name : String} (hsink : turn.worker.sink = .remote name) (number deadline : Nat) :
    (turn.await passage number deadline).script = turn.script := by
  unfold await
  split
  case isTrue => exact script_stop turn
  case isFalse =>
    have hpolled := script_pollSink turn hsink number passage.shipment
    split
    case h_1 answer world hpoll =>
      rw [hpoll] at hpolled
      exact (script_conclude _ passage answer).trans hpolled
    case h_2 =>
      split
      case isTrue => exact (script_conclude _ passage _).trans (script_abandonCall turn)
      case isFalse => rfl

theorem script_afterQueue {α : Type} (phase : Phase) (result : Outcome α × World)
    (hremotes : result.2.remotes = turn.world.remotes) : (turn.afterQueue phase result).script = turn.script := by
  obtain ⟨answer, world⟩ := result
  have hworld : script { turn with world } = turn.script := by
    unfold script World.remote
    dsimp only at hremotes ⊢
    rw [hremotes]
  unfold afterQueue
  cases answer with
  | ok value => exact hworld
  | error error =>
    dsimp only
    split
    case isTrue => exact (script_stop _).trans hworld
    case isFalse => exact hworld

theorem script_drop : turn.drop.script = turn.script := by
  unfold drop
  split
  case h_1 answer world hdrop =>
    obtain rfl : (turn.world.dropQueue turn.worker.key).2 = world := congrArg Prod.snd hdrop
    exact script_stop _
  case h_2 error world hdrop =>
    obtain rfl : (turn.world.dropQueue turn.worker.key).2 = world := congrArg Prod.snd hdrop
    rfl

/-- Nothing but a call uses up what is laid down. -/
theorem script_step {name : String} (hsink : turn.worker.sink = .remote name) (h : turn.stage ≠ .calling) :
    (step turn).script = turn.script := by
  unfold step
  split
  case h_1 => exact script_checkGate turn
  case h_2 => exact script_checkGate turn
  case h_3 => exact script_load turn
  case h_4 file offset hasNext _ => exact script_read turn file offset hasNext
  case h_5 => exact script_drop turn
  case h_6 passage _ => exact script_beginShipping turn passage
  case h_7 passage count _ => exact script_takeToken turn passage count
  case h_8 passage _ => exact script_takePlace turn passage
  case h_9 passage hphase => exact absurd (congrArg Phase.stage hphase) h
  case h_10 passage number deadline _ => exact script_await turn passage hsink number deadline
  case h_11 =>
    split
    case isTrue => exact script_stop turn
    case isFalse => split <;> rfl
  case h_12 => exact script_afterQueue _ _ _ rfl
  case h_13 => exact script_afterQueue _ _ _ rfl
  case h_14 =>
    split
    case isTrue => exact script_stop turn
    case isFalse => split <;> rfl
  case h_15 =>
    split
    case isTrue => exact script_stop turn
    case isFalse => rfl
  case h_16 => split <;> rfl
  case h_17 => rfl

end Frame

/-! ## Failures use up what is laid down -/

/-- How many more calls may fail: those for which a behaviour is laid down, and the one that is open. -/
def troubles (turn : Turn) : Nat := turn.script.length + if turn.stage = .underway then 1 else 0

variable {turn : Turn} {passage : Passage}

theorem stage_fail_ne (reason : String) : (turn.fail passage reason).stage ≠ .underway := by
  unfold fail stage
  dsimp only
  split
  case h_1 => exact Stage.noConfusion
  case h_2 => exact Stage.noConfusion

theorem stage_conclude_ne (answer : Outcome Unit) : (turn.conclude passage answer).stage ≠ .underway := by
  unfold conclude
  split
  case h_1 =>
    show passage.afterShipping.stage ≠ .underway
    rw [stage_afterShipping]
    exact Stage.noConfusion
  case h_2 => exact stage_fail_ne _
  case h_3 => exact stage_fail_ne _

theorem troubles_of_ne (h : turn.stage ≠ .underway) : turn.troubles = turn.script.length := by
  rw [troubles, if_neg h, Nat.add_zero]

/-- A call uses up a behaviour, and may only fail or stay open if there was one. -/
theorem troubles_call {name : String} (hsink : turn.worker.sink = .remote name)
    (hstays : turn.worker.dismissed = false) (hphase : turn.worker.phase = .calling passage) :
    (turn.call passage).troubles ≤ turn.troubles ∧
      (turn.fails = true → (turn.call passage).troubles < turn.troubles) := by
  have hhere : turn.troubles = turn.script.length :=
    troubles_of_ne fun hstage ↦ Stage.noConfusion ((congrArg Phase.stage hphase).symm.trans hstage)
  have hopened := turn.script_openCall
  have hworker := turn.worker_openCall
  unfold fails call
  rw [hphase, hstays, if_neg Bool.false_ne_true, hhere]
  dsimp only
  split
  case h_1 after hopen =>
    rw [hopen] at hopened ⊢
    rw [troubles_of_ne (stage_fail_ne _), script_fail]
    exact ⟨Nat.le_of_eq (congrArg List.length hopened), fun hfails ↦ absurd hfails Bool.false_ne_true⟩
  case h_2 after hopen =>
    rw [hopen] at hopened hworker ⊢
    dsimp only at hopened hworker ⊢
    have hpeer : after.worker.sink = .remote name := hworker ▸ hsink
    have htail : (script { after with world := (after.worker.sink.call after.world passage.shipment).2 }).length =
        turn.script.length - 1 := by
      rw [script_callSink after hpeer, hopened, List.length_tail]
    -- With nothing laid down the call is accepted.
    have hlaid : (after.worker.sink.call after.world passage.shipment).1 ≠ .answered (.ok ()) →
        0 < turn.script.length := by
      intro hnot
      refine List.length_pos_iff.mpr fun hnil ↦ hnot ?_
      have hnone : (after.world.remote name).script = [] := by
        rw [← hopened, script, hpeer] at hnil
        exact hnil
      have haccepts := (after.world.remote name).call_of_nil passage.shipment hnone
      rw [hpeer]
      unfold Sink.call
      dsimp only
      split
      case h_1 answer _ hcall =>
        rw [hcall] at haccepts
        cases haccepts
        rfl
      case h_2 hcall =>
        rw [hcall] at haccepts
        cases haccepts
    rw [← hworker]
    generalize hcalled : after.worker.sink.call after.world passage.shipment = called at htail hlaid ⊢
    obtain ⟨begun, world⟩ := called
    dsimp only at htail hlaid ⊢
    cases begun with
    | answered answer =>
      dsimp only
      rw [troubles_of_ne (stage_conclude_ne _), script_conclude, htail]
      refine ⟨Nat.sub_le _ 1, fun hfails ↦ ?_⟩
      have hsome : 0 < turn.script.length := hlaid (by rintro ⟨⟩; cases hfails)
      exact Nat.sub_lt hsome Nat.one_pos
    | opened number =>
      have hsome : 0 < turn.script.length := hlaid Sink.Call.noConfusion
      have hopens : troubles (goTo { after with world } (.inFlight passage number
          (world.now + after.facilities.settings.shipDeadline))) = turn.script.length - 1 + 1 :=
        congrArg (· + 1) htail
      dsimp only
      rw [hopens]
      exact ⟨Nat.le_of_eq (Nat.sub_add_cancel hsome), fun hfails ↦ absurd hfails Bool.false_ne_true⟩

/-- An open call stays open, or there is one call less that may fail. -/
theorem troubles_await {name : String} (hsink : turn.worker.sink = .remote name)
    (hstays : turn.worker.dismissed = false) {number deadline : Nat}
    (hphase : turn.worker.phase = .inFlight passage number deadline) :
    (turn.await passage number deadline = turn ∧ turn.fails = false) ∨
      (turn.await passage number deadline).troubles < turn.troubles := by
  have hhere : turn.troubles = turn.script.length + 1 := by
    rw [troubles, stage, hphase]
    rfl
  have hless {after : Turn} (hstage : after.stage ≠ .underway) (hscript : after.script = turn.script) :
      after.troubles < turn.troubles := by
    rw [troubles_of_ne hstage, hscript, hhere]
    exact Nat.lt_succ_self _
  have hsame := script_await turn passage hsink number deadline
  unfold await fails at *
  rw [hstays, if_neg Bool.false_ne_true] at hsame ⊢
  rw [hphase]
  split at hsame
  case h_1 answer world hpoll => exact .inr (hless (stage_conclude_ne answer) hsame)
  case h_2 world hpoll =>
    dsimp only at hsame ⊢
    by_cases hlate : deadline ≤ turn.world.now
    case pos =>
      rw [if_pos hlate] at hsame ⊢
      exact .inr (hless (stage_conclude_ne _) hsame)
    case neg =>
      rw [if_neg hlate, hpoll]
      exact .inl ⟨rfl, decide_eq_false hlate⟩

/-- At other stages no call is open afterwards. -/
theorem stage_step_ne (hcalling : turn.stage ≠ .calling) (hopen : turn.stage ≠ .underway) :
    (step turn).stage ≠ .underway := by
  have hdoes := turn.does_step
  unfold Does at hdoes
  generalize (step turn).stage = stage, (step turn).places = places at hdoes ⊢
  rintro rfl
  cases hdoes with
  | opens h => exact hcalling h
  | awaits h => exact hopen h

/-- The calls that may fail do not become more, and each failure is one of them. -/
theorem troubles_step {name : String} (hsink : turn.worker.sink = .remote name)
    (hstays : turn.worker.dismissed = false) :
    (step turn).troubles ≤ turn.troubles ∧ (turn.fails = true → (step turn).troubles < turn.troubles) := by
  cases hphase : turn.worker.phase with
  | calling passage =>
    rw [show step turn = turn.call passage by unfold step; rw [hphase]]
    exact troubles_call hsink hstays hphase
  | inFlight passage number deadline =>
    rw [show step turn = turn.await passage number deadline by unfold step; rw [hphase]]
    rcases troubles_await hsink hstays hphase with ⟨hwaits, hquiet⟩ | hless
    · rw [hwaits]
      exact ⟨Nat.le_refl _, fun hfails ↦ absurd (hquiet.symm.trans hfails) Bool.false_ne_true⟩
    · exact ⟨Nat.le_of_lt hless, fun _ ↦ hless⟩
  | _ =>
    have hcalling : turn.stage ≠ .calling := by rw [stage, hphase]; exact Stage.noConfusion
    have hopen : turn.stage ≠ .underway := by rw [stage, hphase]; exact Stage.noConfusion
    have hquiet : turn.fails = false := by rw [fails, hphase]
    rw [troubles_of_ne hopen, troubles_of_ne (stage_step_ne hcalling hopen), script_step turn hsink hcalling]
    exact ⟨Nat.le_refl _, fun hfails ↦ absurd (hquiet.symm.trans hfails) Bool.false_ne_true⟩

end Turn

end Worker

/-! ## A bulkhead with one user -/

/-- There are places, and nobody but one user has to do with them. -/
structure Bulkhead.Alone {α : Type} (places : Bulkhead α) (user : α) : Prop where
  room : 0 < places.capacity
  line : places.line = []
  users : ∀ other ∈ places.users, other = user

namespace Bulkhead.Alone

variable {α : Type} [BEq α] [LawfulBEq α] {places : Bulkhead α} {user : α}

theorem enter (h : places.Alone user) :
    (places.enter user).Alone user ∧ (places.enter user).holds user = true := by
  unfold Bulkhead.enter
  rw [h.line, List.contains_nil, Bool.or_false]
  split
  case isTrue hholds => exact ⟨h, hholds⟩
  case isFalse hnew =>
    have hnobody : places.users = [] := by
      refine List.eq_nil_iff_forall_not_mem.mpr fun other hother ↦ hnew ?_
      exact List.contains_iff_mem.mpr (h.users other hother ▸ hother)
    have hroom : places.isFull = false := by
      rw [isFull, available, hnobody, List.length_nil, Nat.sub_zero]
      exact beq_false_of_ne (Nat.ne_of_gt h.room)
    rw [tryEnter, hroom, if_neg Bool.false_ne_true, hnobody, List.nil_append]
    refine ⟨⟨h.room, h.line, fun other hother ↦ List.mem_singleton.mp hother⟩, ?_⟩
    exact List.contains_iff_mem.mpr (List.mem_singleton_self user)

omit [LawfulBEq α] in
theorem leave (h : places.Alone user) : (places.leave user).Alone user := by
  have hline : places.line.erase user = [] := by
    rw [h.line]
    rfl
  unfold Bulkhead.leave fill
  dsimp only
  rw [hline, List.take_nil, List.drop_nil, List.append_nil]
  exact ⟨h.room, rfl, fun other hother ↦ h.users other (List.mem_of_mem_erase hother)⟩

end Bulkhead.Alone

namespace Worker

/-! ## Step after step -/

/-- Nothing stands in the way of a worker that is alone with its remote cluster. -/
structure Turn.Secluded (name : String) (turn : Turn) : Prop where
  reachable : turn.world.database.reachable = true
  opened : turn.gateOpen = true
  stays : turn.worker.dismissed = false
  sink : turn.worker.sink = .remote name
  unlimited : turn.burst? = none
  alone : turn.places.Alone turn.worker.key

theorem Turn.Secluded.hasToken {name : String} {turn : Turn} (h : turn.Secluded name) : turn.HasToken := by
  intro limiter hlimiter
  cases (Option.map_eq_none_iff.mp h.unlimited).symm.trans hlimiter

theorem Turn.Secluded.step {name : String} {turn : Turn} (h : turn.Secluded name) :
    (step turn).Secluded name := by
  have hpost := turn.post_step
  have hkey : (Worker.step turn).worker.key = turn.worker.key := congrArg (·.assignment.key) hpost
  constructor
  case reachable => exact turn.reachable_step.trans h.reachable
  case opened =>
    rw [← Turn.clearance_eq_full_iff, Turn.clearance_step, Turn.clearance_eq_full_iff]
    exact h.opened
  case stays => exact turn.dismissed_step.trans h.stays
  case sink => exact (congrArg (·.assignment.sink) hpost).trans h.sink
  case unlimited => exact turn.burst?_step.trans h.unlimited
  case alone =>
    rw [hkey]
    have hdoes := turn.does_step
    unfold Turn.Does at hdoes
    generalize (Worker.step turn).stage = stage, (Worker.step turn).places = places at hdoes ⊢
    cases hdoes with
    | leaves => exact h.alone.leave
    | queues | enters => exact h.alone.enter.1
    | aside | looks | waits | provided | opens | fails | awaits | rests => exact h.alone

namespace Journal

/-- A while has passed, and nobody has done anything. -/
def later (pace : Duration) (journal : Journal) : Journal :=
  let world := journal.turn.world
  journal.setTurn (journal.turn.elsewhere { world with now := world.now + pace } journal.turn.facilities)

/-- The worker makes a step, a while passes, and so on. -/
def ticking (pace : Duration) (journal : Journal) : Nat → Journal
  | 0 => journal
  | n + 1 => if n % 2 = 0 then (journal.ticking pace n).work else (journal.ticking pace n).later pace

variable {journal : Journal} {pace : Duration}

theorem ticking_cases (pace : Duration) (journal : Journal) (n : Nat) :
    (n % 2 = 0 ∧ journal.ticking pace (n + 1) = (journal.ticking pace n).work) ∨
      (n % 2 = 1 ∧ journal.ticking pace (n + 1) = (journal.ticking pace n).later pace) := by
  rcases Nat.mod_two_eq_zero_or_one n with heven | hodd
  · exact .inl ⟨heven, if_pos heven⟩
  · exact .inr ⟨hodd, if_neg (by omega)⟩

theorem works_ticking {n : Nat} (heven : n % 2 = 0) : Works (journal.ticking pace) n :=
  ((journal.ticking_cases pace n).resolve_right fun hodd ↦ by omega).2

/-- The clock comes to any time. -/
theorem half_le_now (hpace : 0 < pace) (n : Nat) : n / 2 ≤ (journal.ticking pace n).turn.world.now := by
  induction n with
  | zero => exact Nat.zero_le _
  | succ n ih =>
    rcases journal.ticking_cases pace n with ⟨heven, hnext⟩ | ⟨hodd, hnext⟩
    · rw [hnext]
      show (n + 1) / 2 ≤ (step _).world.now
      rw [Turn.now_step]
      omega
    · rw [hnext]
      show (n + 1) / 2 ≤ (journal.ticking pace n).turn.world.now + pace
      have hhalf : (n + 1) / 2 = n / 2 + 1 := by omega
      exact hhalf ▸ Nat.add_le_add ih hpace

/-- Nobody opens a circuit while time passes. -/
theorem not_trips_ticking (n : Nat) : ¬Trips (journal.ticking pace) n := by
  rintro ⟨hidle, hlonger⟩
  rcases journal.ticking_cases pace n with ⟨-, hnext⟩ | ⟨-, hnext⟩
  · exact hidle hnext
  · rw [hnext] at hlonger
    exact Nat.lt_irrefl _ hlonger

section Secluded

variable {name : String} (h : journal.turn.Secluded name)

include h

theorem secluded_ticking (n : Nat) : (journal.ticking pace n).turn.Secluded name := by
  induction n with
  | zero => exact h
  | succ n ih =>
    rcases journal.ticking_cases pace n with ⟨-, hnext⟩ | ⟨-, hnext⟩
    · rw [hnext]
      exact ih.step
    · rw [hnext]
      exact ⟨ih.reachable, ih.opened, ih.stays, ih.sink, ih.unlimited, ih.alone⟩

theorem troubles_ticking_le {n m : Nat} (hle : n ≤ m) :
    (journal.ticking pace m).turn.troubles ≤ (journal.ticking pace n).turn.troubles := by
  induction hle with
  | refl => exact Nat.le_refl _
  | @step m _ ih =>
    have hsecluded : (journal.ticking pace m).turn.Secluded name := secluded_ticking h m
    refine Nat.le_trans ?_ ih
    rcases journal.ticking_cases pace m with ⟨-, hnext⟩ | ⟨-, hnext⟩
    · rw [Nat.succ_eq_add_one, hnext]
      exact (Turn.troubles_step hsecluded.sink hsecluded.stays).1
    · rw [Nat.succ_eq_add_one, hnext]
      exact Nat.le_refl _

/-- Only so many calls fail. -/
theorem ticking_quiets (n : Nat) : ∃ m, n ≤ m ∧ ∀ later, m ≤ later → ¬Fails (journal.ticking pace) later := by
  induction htroubles : (journal.ticking pace n).turn.troubles using Nat.strongRecOn generalizing n with
  | ind troubles ih =>
    by_cases hfails : ∃ later, n ≤ later ∧ Fails (journal.ticking pace) later
    case pos =>
      obtain ⟨later, hle, hworks, hfails⟩ := hfails
      have hsecluded : (journal.ticking pace later).turn.Secluded name := secluded_ticking h later
      have hless := (Turn.troubles_step hsecluded.sink hsecluded.stays).2 hfails
      rw [← Unhindered.turn_of_works hworks] at hless
      have hfewer := Nat.lt_of_lt_of_le hless (troubles_ticking_le h hle)
      obtain ⟨m, hm, hquiet⟩ := ih _ (htroubles ▸ hfewer) (later + 1) rfl
      exact ⟨m, by omega, hquiet⟩
    case neg => exact ⟨n, Nat.le_refl n, fun later hle hfails' ↦ hfails ⟨later, hle, hfails'⟩⟩

end Secluded

end Journal

/-- Whole files are there. -/
theorem Whole.legible {directory : Directory} {files : List FileRef} {offset : Nat} {file : FileRef}
    (h : Whole directory files offset) (hfile : file ∈ files) : ∃ start, Legible directory file start := by
  cases files with
  | nil => exact absurd hfile List.not_mem_nil
  | cons head later =>
    rcases List.mem_cons.mp hfile with rfl | hlater
    · exact ⟨offset, h.1 file rfl⟩
    · exact ⟨0, h.2 file hlater⟩

/-- Others need not do anything. -/
theorem Faithful.elsewhere {files : List FileRef} {start : Nat} {schema : Schema} {journal : Journal}
    (h : Faithful files start schema journal) : Elsewhere journal.finished journal.scene journal.scene where
  key := rfl
  schema := rfl
  wellFormed := h.ledger.wellFormed
  offset := rfl
  listed := ⟨[], (List.append_nil _).symm, fun _ ↦ rfl, fun _ hfile ↦ absurd hfile List.not_mem_nil⟩
  closed _ _ := rfl
  grown file hfile := by
    have hsome : journal.scene.listed ≠ [] := List.ne_nil_of_mem hfile
    obtain ⟨offset, hoffset⟩ := Scene.offset_of_listed h.ledger.wellFormed (List.head?_eq_some_head hsome)
    obtain ⟨_, content, -, hcontent, -, -⟩ := (h.ledger.whole offset hoffset).legible hfile
    exact ⟨content, [], [], hcontent, hcontent.trans (congrArg some (List.append_nil content).symm),
      records_nil_iff.mpr rfl⟩

section Opening

variable {world : World} {facilities : Facilities} {key : QueueKey} {name : String} {circuit : Nat} {gate : Gate}
  {queue : Queue}

/-- A worker that is left to itself is not disturbed. -/
theorem unhindered_ticking {pace : Duration} (hpace : 0 < pace) (hreach : world.database.queues.Reachable)
    (hqueue : world.database.queues.get? key = some queue)
    (hwhole : Whole world.directory queue.files queue.offset)
    (hsecluded : (Turn.mk world facilities (.create key (.remote name) circuit gate)).Secluded name) :
    Unhindered (Journal.ticking pace (.opening ⟨world, facilities, .create key (.remote name) circuit gate⟩)) := by
  generalize hopening : Journal.opening ⟨world, facilities, .create key (.remote name) circuit gate⟩ = journal
  have hturn : journal.turn.Secluded name := hopening ▸ hsecluded
  have hfaithful (n : Nat) : Faithful queue.files queue.offset world.schema (journal.ticking pace n) := by
    induction n with
    | zero => exact hopening ▸ faithful_opening trivial hreach hqueue hwhole
    | succ n ih =>
      rcases journal.ticking_cases pace n with ⟨-, hnext⟩ | ⟨-, hnext⟩
      · exact hnext ▸ ih.work
      · exact hnext ▸ ih.moves (.elsewhere _ _ _ ih.elsewhere)
  have hstill (n : Nat) : (journal.ticking pace n).turn.Secluded name := Journal.secluded_ticking hturn n
  constructor
  case proceeds =>
    intro n
    rcases journal.ticking_cases pace n with ⟨-, hnext⟩ | ⟨-, hnext⟩
    · rw [hnext]
      exact .work
    · rw [hnext]
      exact .elsewhere _ _ (hfaithful n).elsewhere (Nat.le_add_right _ _)
  case reachable => exact fun n ↦ (hstill n).reachable
  case opened => exact fun n ↦ (hstill n).opened
  case works =>
    intro n
    have hfree (m : Nat) : (journal.ticking pace m).turn.HasToken ∧ (journal.ticking pace m).turn.HasRoom :=
      ⟨(hstill m).hasToken, (hstill m).alone.enter.2⟩
    rcases Nat.mod_two_eq_zero_or_one n with heven | hodd
    · exact ⟨n, Nat.le_refl n, Journal.works_ticking heven, hfree n⟩
    · exact ⟨n + 1, Nat.le_succ n, Journal.works_ticking (by omega), hfree (n + 1)⟩
  case clock =>
    intro time
    refine ⟨2 * time, Nat.le_trans ?_ (Journal.half_le_now hpace (2 * time))⟩
    omega
  case yields =>
    intro n
    obtain ⟨m, hle, hquiet⟩ := Journal.ticking_quiets hturn n
    exact ⟨m, hle, .inr fun later hlater ↦ ⟨hquiet later hlater, Journal.not_trips_ticking later⟩⟩

end Opening

end Worker
end LogShipping
