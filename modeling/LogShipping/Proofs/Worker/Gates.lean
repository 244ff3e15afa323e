import LogShipping.Proofs.Worker.Delivery
import LogShipping.Proofs.Worker.Post
import LogShipping.Proofs.Worker.Stages

/-!
# Calls behind a shut gate

A worker looks at the gate when it sets about shipping a passage: at the switch, and at the registration
and the flag of its peer. From there to the call it may have to wait for tokens and then for a place in
the bulkhead, for as long as others keep these, and it does not look again. What a call meets is therefore
not what the worker saw but what the gate was turned to last since then. So a call is made behind a shut
gate if and only if the gate was shut while the worker waited, and was not opened again before its turn
came.
-/

namespace LogShipping.Worker

/-! ## The gate -/

/-- What lets a worker ship: the switch is on, its peer is still registered as it was when the worker was
started, and the peer is enabled. -/
structure Clearance where
  replicating : Bool
  registered : Bool
  enabled : Bool
  deriving Repr, DecidableEq

/-- The gate is open. -/
def Clearance.full : Clearance := ⟨true, true, true⟩

namespace Turn

def clearance (turn : Turn) : Clearance where
  replicating := turn.world.registry.replicating
  registered := turn.world.registry.isCurrent turn.worker.gate
  enabled := (turn.world.registry.peer? turn.worker.gate.peer).any (·.enabled)

theorem clearance_eq_full_iff (turn : Turn) : turn.clearance = .full ↔ turn.gateOpen = true := by
  rw [clearance, Clearance.full, Clearance.mk.injEq, gateOpen, Registry.isOpen, Bool.and_eq_true,
    Bool.and_eq_true]

theorem clearance_of_post_eq {turn after : Turn} (h : after.post = turn.post) :
    after.clearance = turn.clearance := by
  have hregistry : after.world.registry = turn.world.registry := congrArg (·.roster.registry) h
  have hgate : after.worker.gate = turn.worker.gate := congrArg (·.assignment.gate) h
  rw [clearance, clearance, hregistry, hgate]

/-- A worker does not turn the gate. -/
theorem clearance_step (turn : Turn) : (step turn).clearance = turn.clearance :=
  clearance_of_post_eq turn.post_step

end Turn

/-! ## Watching a worker -/

/-- What happens around a gate. -/
inductive GateMark
  /-- The worker has looked at the gate, found it open and sets about shipping. -/
  | looked
  /-- The gate was turned. -/
  | turned (clearance : Clearance)
  /-- The worker calls its peer, with the gate as it then is. -/
  | called (clearance : Clearance)
  deriving Repr, DecidableEq

def GateMark.turned? : GateMark → Option Clearance
  | turned clearance => some clearance
  | _ => none

/-- What an open gate was turned to last. -/
def lastTurned (history : List GateMark) : Clearance :=
  (history.filterMap GateMark.turned?).getLast?.getD .full

/-- The mark that the next step leaves, if it leaves one. -/
def Turn.mark? (turn : Turn) : Option GateMark :=
  match turn.worker.phase with
  | .shipping _ => if !turn.mustStop && turn.gateOpen then some .looked else none
  | .calling _ => turn.sends?.map fun _ ↦ .called turn.clearance
  | _ => none

structure Watch where
  turn : Turn
  history : List GateMark

namespace Watch

/-- A worker that was just started. -/
def opening (world : World) (facilities : Facilities) (key : QueueKey) (sink : Sink) (circuit : Nat)
    (gate : Gate) : Watch :=
  ⟨⟨world, facilities, .create key sink circuit gate⟩, []⟩

/-- The worker makes one step. -/
def work (watch : Watch) : Watch := ⟨step watch.turn, watch.history ++ watch.turn.mark?.toList⟩

/-- Others leave another world and other facilities behind, in which the gate may be another one. -/
def elsewhere (watch : Watch) (world : World) (facilities : Facilities) : Watch :=
  let turn : Turn := ⟨world, facilities, watch.turn.worker⟩
  ⟨turn, watch.history ++ if turn.clearance = watch.turn.clearance then [] else [.turned turn.clearance]⟩

def setWorker (watch : Watch) (worker : Worker) : Watch := { watch with turn := { watch.turn with worker } }

/-- One step of a run. -/
inductive Moves : Watch → Watch → Prop
  | work (watch : Watch) : Moves watch watch.work
  /-- The worker is told to stop. -/
  | dismiss (watch : Watch) : Moves watch (watch.setWorker { watch.turn.worker with dismissed := true })
  /-- The worker is told that there may be something new. -/
  | wake (watch : Watch) : Moves watch (watch.setWorker watch.turn.worker.wake)
  /-- The worker is stopped where it stands. -/
  | stop (watch : Watch) : Moves watch { watch with turn := watch.turn.stop }
  | elsewhere (watch : Watch) (world : World) (facilities : Facilities) :
      Moves watch (watch.elsewhere world facilities)

/-- A run leads from one watch to another. -/
def Leads : Watch → Watch → Prop := Relation.ReflTransGen Moves

end Watch

/-- After a history the worker has looked and not called yet, and the gate is as it was turned last. -/
def Looked (history : List GateMark) (clearance : Clearance) : Prop :=
  ∃ before since, history = before ++ .looked :: since ∧ (∀ other, .called other ∉ since) ∧
    clearance = lastTurned since

/-! ## What is kept along a run -/

theorem lastTurned_concat (history : List GateMark) (clearance : Clearance) :
    lastTurned (history ++ [.turned clearance]) = clearance := by
  unfold lastTurned
  rw [List.filterMap_append]
  simp [GateMark.turned?]

theorem Looked.concat_turned {history : List GateMark} {clearance : Clearance}
    (h : Looked history clearance) (next : Clearance) : Looked (history ++ [.turned next]) next := by
  obtain ⟨before, since, rfl, hquiet, -⟩ := h
  refine ⟨before, since ++ [.turned next], by simp, fun other hmem ↦ ?_, (lastTurned_concat since next).symm⟩
  rcases List.mem_append.mp hmem with hold | hnew
  · exact hquiet other hold
  · cases List.mem_singleton.mp hnew

/-- The worker is on its way from the look to the call. -/
def Stage.Approaches : Stage → Prop
  | tokens | line | calling => True
  | _ => False

/-- A worker comes on that way by looking at the gate, and stays on it until it calls. -/
theorem Turn.approaches_of_step (turn : Turn) (h : (step turn).stage.Approaches) :
    (∃ passage, turn.worker.phase = .shipping passage ∧ turn.mustStop = false ∧ turn.gateOpen = true) ∨
      turn.stage = .tokens ∨ turn.stage = .line := by
  have hdoes := turn.does_step
  unfold Turn.Does at hdoes
  generalize (step turn).stage = stage, (step turn).places = places at hdoes h
  cases hdoes with
  | leaves | aside | opens | fails | awaits | rests => exact h.elim
  | looks hphase hstays hopen => exact .inl ⟨_, hphase, hstays, hopen⟩
  | waits hstage | provided hstage => exact .inr (.inl hstage)
  | queues hstage | enters hstage => exact .inr (.inr hstage)

namespace Watch

/-- A worker that is about to call has looked at the gate, and so had each that called. -/
structure Guarded (watch : Watch) : Prop where
  approach : watch.turn.stage.Approaches → Looked watch.history watch.turn.clearance
  calls : ∀ earlier clearance later, watch.history = earlier ++ .called clearance :: later →
    Looked earlier clearance

namespace Guarded

variable {watch after : Watch}

/-- A call is one of the earlier ones, or one of those that come now. -/
theorem calls_append (h : watch.Guarded) {marks earlier later : List GateMark} {clearance : Clearance}
    (hsplit : watch.history ++ marks = earlier ++ .called clearance :: later) :
    Looked earlier clearance ∨
      ∃ rest, earlier = watch.history ++ rest ∧ marks = rest ++ .called clearance :: later := by
  rcases List.append_eq_append_iff.mp hsplit with hnew | ⟨rest, hhistory, hlater⟩
  · exact .inr hnew
  · cases rest with
    | nil => exact .inr ⟨[], by rw [hhistory, List.append_nil, List.append_nil], hlater.symm⟩
    | cons mark rest =>
      obtain ⟨rfl, -⟩ := List.cons.inj hlater
      exact .inl (h.calls earlier clearance rest hhistory)

/-- The history goes on with something else than a call. -/
theorem calls_quiet (h : watch.Guarded) {marks : List GateMark} (hquiet : ∀ other, .called other ∉ marks)
    (earlier : List GateMark) (clearance : Clearance) (later : List GateMark)
    (hsplit : watch.history ++ marks = earlier ++ .called clearance :: later) : Looked earlier clearance := by
  rcases h.calls_append hsplit with hold | ⟨rest, -, hmarks⟩
  · exact hold
  · exact absurd (hmarks ▸ List.mem_append_right rest List.mem_cons_self) (hquiet clearance)

/-- The history stays as it is, and the worker comes no nearer to a call. -/
theorem same (h : watch.Guarded) {turn : Turn}
    (happroach : turn.stage.Approaches → watch.turn.stage.Approaches)
    (hclearance : turn.clearance = watch.turn.clearance) : Guarded ⟨turn, watch.history⟩ where
  approach hnear := by
    rw [hclearance]
    exact h.approach (happroach hnear)
  calls := h.calls

/-- The worker looks, or calls, or comes no nearer. -/
theorem work (h : watch.Guarded) : watch.work.Guarded := by
  obtain ⟨turn, history⟩ := watch
  have hclearance := turn.clearance_step
  unfold Watch.work
  cases hmark : turn.mark? with
  | none =>
    rw [Option.toList_none, List.append_nil]
    refine h.same (fun hnear ↦ ?_) hclearance
    show turn.stage.Approaches
    rcases turn.approaches_of_step hnear with ⟨passage, hphase, hstays, hopen⟩ | hstage | hstage
    · unfold Turn.mark? at hmark
      rw [hphase, hstays, hopen] at hmark
      cases hmark
    · rw [hstage]; trivial
    · rw [hstage]; trivial
  | some mark =>
    rw [Option.toList_some]
    unfold Turn.mark? at hmark
    split at hmark
    case h_1 passage hphase =>
      split at hmark
      case isFalse => cases hmark
      case isTrue hgate =>
        obtain rfl := Option.some.inj hmark
        rw [Bool.and_eq_true] at hgate
        refine ⟨fun _ ↦ ?_, h.calls_quiet fun other ↦ by simp⟩
        refine ⟨history, [], rfl, fun _ ↦ List.not_mem_nil, ?_⟩
        exact hclearance.trans (turn.clearance_eq_full_iff.mpr hgate.2)
    case h_2 passage hphase =>
      have hstage : turn.stage = .calling := by rw [Turn.stage, hphase]; rfl
      obtain ⟨shipment, -, rfl⟩ := Option.map_eq_some_iff.mp hmark
      have hlooked : Looked history turn.clearance := h.approach (by rw [hstage]; trivial)
      constructor
      case approach =>
        intro hnear
        rcases turn.approaches_of_step hnear with ⟨_, hother, -⟩ | hother | hother
        · rw [hphase] at hother; cases hother
        · rw [hstage] at hother; cases hother
        · rw [hstage] at hother; cases hother
      case calls =>
        intro earlier clearance later hsplit
        rcases h.calls_append hsplit with hold | ⟨rest, rfl, hmarks⟩
        · exact hold
        · rcases List.singleton_eq_append_iff.mp hmarks with ⟨rfl, hcall⟩ | ⟨-, hnone⟩
          · obtain ⟨hsame, -⟩ := List.cons.inj hcall
            rw [List.append_nil, GateMark.called.inj hsame]
            exact hlooked
          · cases hnone
    case h_3 => cases hmark

theorem elsewhere (h : watch.Guarded) (world : World) (facilities : Facilities) :
    (watch.elsewhere world facilities).Guarded := by
  unfold Watch.elsewhere
  dsimp only
  split
  case isTrue hsame =>
    rw [List.append_nil]
    exact h.same id hsame
  case isFalse =>
    exact ⟨fun hnear ↦ (h.approach hnear).concat_turned _, h.calls_quiet fun other ↦ by simp⟩

/-- What holds of a watch holds after each step of a run. -/
theorem moves (h : watch.Guarded) (hmove : watch.Moves after) : after.Guarded := by
  cases hmove with
  | work => exact h.work
  | dismiss => exact h.same id rfl
  | wake =>
    refine h.same (fun hnear ↦ ?_) ?_
    · change watch.turn.worker.wake.phase.stage.Approaches at hnear
      unfold Worker.wake at hnear
      split at hnear
      case isTrue => exact hnear.elim
      case isFalse => exact hnear
    · have hgate : watch.turn.worker.wake.gate = watch.turn.worker.gate := by
        unfold Worker.wake
        split <;> rfl
      show (⟨_, watch.turn.world.registry.isCurrent watch.turn.worker.wake.gate,
        (watch.turn.world.registry.peer? watch.turn.worker.wake.gate.peer).any (·.enabled)⟩ : Clearance) = _
      rw [hgate]
      rfl
  | stop => exact h.same (fun hnear ↦ hnear.elim) (Turn.clearance_of_post_eq (Turn.post_stop _))
  | elsewhere world facilities => exact h.elsewhere world facilities

theorem leads (h : watch.Guarded) (hleads : watch.Leads after) : after.Guarded := by
  induction hleads with
  | refl => exact h
  | tail _ hmove ih => exact ih.moves hmove

end Guarded

/-- Before each call the worker has looked at the gate, once for this call, and the call meets the gate as
it was turned last since then. -/
theorem called_as_turned_last {world : World} {facilities : Facilities} {key : QueueKey} {sink : Sink}
    {circuit : Nat} {gate : Gate} {watch : Watch}
    (hleads : (opening world facilities key sink circuit gate).Leads watch) {earlier later : List GateMark}
    {clearance : Clearance} (hcalled : watch.history = earlier ++ .called clearance :: later) :
    ∃ before since, earlier = before ++ .looked :: since ∧ (∀ other, .called other ∉ since) ∧
      clearance = lastTurned since := by
  have hopening : (opening world facilities key sink circuit gate).Guarded := by
    refine ⟨fun hnear ↦ hnear.elim, fun earlier _ later hsplit ↦ ?_⟩
    exact absurd hsplit.symm (List.append_ne_nil_of_right_ne_nil earlier (List.cons_ne_nil _ later))
  exact (hopening.leads hleads).calls earlier clearance later hcalled

theorem leads_repeat (watch : Watch) (steps : Nat) : watch.Leads (Nat.repeat work steps watch) := by
  induction steps with
  | zero => exact .refl
  | succ steps ih => exact .tail ih (.work _)

end Watch

namespace Sample

/-- The peer is in the table too. -/
def registered : World :=
  { world with database := { world.database with peers := [⟨"p", "mem://p", true⟩] } }

def started (facilities : Facilities) : Watch :=
  .opening registered facilities key (.remote "p") 0 ⟨"p", 0⟩

/-- A worker that has a place at once has called its peer. -/
def undisturbed : Watch := Nat.repeat Watch.work 7 (started facilities)

/-- The only place is taken by the worker of another queue. -/
def crowded : Facilities := { facilities with places := ⟨1, [.own "b" "q"], []⟩ }

/-- The worker stands in line. -/
def queued : Watch := Nat.repeat Watch.work 6 (started crowded)

/-- Something is changed, then the place is given back, and the worker goes on. -/
def resumedAfter (change : World → World) : Watch :=
  let changed := queued.elsewhere (change queued.turn.world) queued.turn.facilities
  let places := changed.turn.places.leave (.own "b" "q")
  Nat.repeat Watch.work 2
    (changed.elsewhere changed.turn.world { changed.turn.facilities with places })

theorem leads_resumedAfter (change : World → World) : (started crowded).Leads (resumedAfter change) :=
  (((Watch.leads_repeat _ 6).tail (.elsewhere queued _ _)).tail (.elsewhere _ _ _)).trans
    (Watch.leads_repeat _ 2)

/-- The change shuts the gate, and the worker ships to the peer all the same once it gets a place. -/
def ShipsDespite (change : World → World) : Prop :=
  (started crowded).Leads (resumedAfter change) ∧
    (∃ clearance, (resumedAfter change).history = [.looked, .turned clearance] ++ .called clearance :: [] ∧
      clearance ≠ .full) ∧
    ((resumedAfter change).turn.world.remote "p").accepted = [shipment]

end Sample

namespace Watch

theorem called_undisturbed :
    (Sample.started Sample.facilities).Leads Sample.undisturbed ∧
      Sample.undisturbed.history = [.looked] ++ .called .full :: [] ∧
      ∃ before since, [.looked] = before ++ GateMark.looked :: since ∧
        (∀ other, .called other ∉ since) ∧ Clearance.full = lastTurned since := by
  have hleads : (Sample.started Sample.facilities).Leads Sample.undisturbed := leads_repeat _ 7
  have hcalled : Sample.undisturbed.history = [.looked] ++ .called .full :: [] := by decide +kernel
  exact ⟨hleads, hcalled, called_as_turned_last hleads hcalled⟩

/-- A worker that stands in line when replication is switched off, or its peer is disabled or removed, ships
to the peer once it gets a place. -/
theorem called_behind_shut_gate :
    Sample.ShipsDespite (fun world ↦ (world.setReplicating false).2) ∧
      Sample.ShipsDespite (fun world ↦ (world.setPeerEnabled "p" false).2) ∧
      Sample.ShipsDespite (fun world ↦ (world.removePeer "p").2) := by
  refine ⟨⟨Sample.leads_resumedAfter _, ⟨⟨false, true, true⟩, ?_, ?_⟩, ?_⟩,
    ⟨Sample.leads_resumedAfter _, ⟨⟨true, true, false⟩, ?_, ?_⟩, ?_⟩,
    Sample.leads_resumedAfter _, ⟨⟨true, false, false⟩, ?_, ?_⟩, ?_⟩
  all_goals decide +kernel

end Watch

end LogShipping.Worker
