import LogShipping.Proofs.Failover.Survey

/-!
# How a pass spreads queues over the nodes

A pass gives a queue to the node that holds the fewest queues as the pass reckons, among the live nodes that
may take it. That is the node that holds the fewest indeed, unless an origin got a queue of its own back in the
same pass. This one is not counted, and the origin is then taken for lighter than it is.
-/

namespace LogShipping.Failover

open QueueTables

namespace Pass

/-- A pass after so many steps, with nobody else at the database. -/
def Turn.after (registry : Registry) (turn : Turn) : (steps : Nat) → Turn
  | 0 => turn
  | steps + 1 => (turn.after registry steps).next registry

variable {start : QueueTables} {live : List String} {owner : String} {turn : Turn} {registry : Registry}

theorem Turn.Knows.after (h : turn.Knows start live owner) (registry : Registry) (steps : Nat) :
    (turn.after registry steps).Knows start live owner := by
  induction steps with
  | zero => exact h
  | succ steps ih =>
    obtain ⟨wf, hlive, hpass⟩ := ih.step registry
    exact ⟨wf, hlive, hpass⟩

theorem transferred_not_mem_drop (database : Database) (dropped key target : QueueKey) :
    .transferred key target ∉ (QueueStore.serve database (.drop dropped)).events := by
  rw [QueueStore.serve_drop]
  cases database.reachable <;> cases (database.queues.offset? dropped).isSome <;> simp

/-- A queue that is handed to another node than its origin goes to the first of those that may take it, as the
pass reckons their loads. -/
theorem Turn.Knows.first (h : turn.Knows start live owner) {key target : QueueKey}
    (hmoved : .transferred key target ∈ (turn.pass.step registry turn.database turn.membership).events)
    (hforeign : target.owner ≠ key.origin) :
    First (reckoned start turn.database.queues) (Eligible turn.database.queues live key) target.owner := by
  obtain ⟨pass, database, membership, events⟩ := turn
  obtain ⟨-, -, hknows⟩ := h
  have hevents : (pass.step registry database membership).events = _ :=
    congrArg QueueStore.Effect.events (pass.effect_step registry database membership)
  dsimp only at hmoved hknows ⊢
  cases pass with
  | asking | gathering | counting | listing | done | failed =>
    rw [hevents] at hmoved
    cases hmoved
  | choosing survey queues report =>
    rw [hevents] at hmoved
    cases queues with
    | nil => cases hmoved
    | cons first queues =>
      rw [call?] at hmoved
      split at hmoved
      case isTrue => cases hmoved
      case isFalse => exact absurd hmoved (transferred_not_mem_drop database first key target)
  | offering survey first nodes queues report =>
    obtain ⟨rfl, hexact, -, hkey, hnodes⟩ := hknows
    cases nodes with
    | nil =>
      rw [hevents] at hmoved
      cases hmoved
    | cons node nodes =>
      obtain ⟨-, ⟨after, -, -, -, hevents⟩ | ⟨-, hevents, -⟩⟩ :=
        step_offering_cases registry database membership survey first node nodes queues report
      case inr =>
        rw [hevents] at hmoved
        cases hmoved
      rw [hevents, List.mem_singleton] at hmoved
      cases hmoved
      exact (hexact.first_candidate hkey hnodes.symm).resolve_right fun hback ↦ hforeign hback.1

end Pass

open Pass

/-- The node that comes first as the pass reckons is the first indeed if it is so among the nodes that got back
fewer queues of their own. -/
theorem first_heldBy_iff {start now : QueueTables} {eligible : String → Prop} {node : String}
    (h : First (reckoned start now) eligible node) :
    First now.heldBy eligible node ↔
      ∀ other, eligible other → regained start now other < regained start now node →
        Before now.heldBy node other := by
  constructor
  · exact fun hfirst other hother _ ↦ hfirst.before other hother
  · refine fun hfewer ↦ ⟨h.may, fun other hother ↦ ?_⟩
    rcases Nat.lt_or_ge (regained start now other) (regained start now node) with hless | hmore
    · exact hfewer other hother hless
    have hbefore := h.before other hother
    rw [Before, heldBy_eq_add start, heldBy_eq_add start]
    rcases hbefore with hlight | ⟨hsame, hname⟩
    · exact .inl (Nat.add_lt_add_of_lt_of_le hlight hmore)
    rcases Nat.eq_or_lt_of_le hmore with heven | hmore
    · exact .inr ⟨by omega, hname⟩
    · exact .inl (by omega)

/-- Each queue that a pass over the queues of one owner hands to another node than its origin goes to the node
that the pass reckons to hold the fewest queues at that moment, among the live nodes other than owner and origin
that hold no queue of the slot, and to the first by name among equals. Not reckoned are the queues of their own
that nodes got back in this pass. So the node holds the fewest of all, unless another one that got back fewer
comes before it. -/
theorem goes_to_first {registry : Registry} {start : Turn} {owner : String} (hopens : start.pass.Opens owner)
    (hreach : start.database.queues.Reachable) (steps : Nat) {key target : QueueKey} :
    let turn := start.after registry steps
    let now := turn.database.queues
    let eligible := Eligible now turn.membership.live key
    .transferred key target ∈ (turn.pass.step registry turn.database turn.membership).events →
      target.owner ≠ key.origin →
      First (reckoned start.database.queues now) eligible target.owner ∧
        (First now.heldBy eligible target.owner ↔
          ∀ other, eligible other →
            regained start.database.queues now other < regained start.database.queues now target.owner →
            Before now.heldBy target.owner other) := by
  intro turn now eligible hmoved hforeign
  have hstart : start.Knows start.database.queues start.membership.live owner :=
    ⟨hreach.wellFormed, rfl, knows_of_opens hopens _⟩
  have hknows := hstart.after registry steps
  have hfirst := hknows.first hmoved hforeign
  rw [← hknows.membership] at hfirst
  exact ⟨hfirst, first_heldBy_iff hfirst⟩

namespace Sample

/-- A coordinator that knows two peers. -/
def registry : Registry := ⟨[⟨⟨"2", "c", true⟩, 0⟩, ⟨⟨"3", "c", true⟩, 1⟩], true, 2⟩

/-- Node "d" has died, and a pass over its queues begins. -/
def death (operations : List Operation) : Turn :=
  ⟨.asking "d",
    { Database.empty with
      peers := registry.cached.map (·.peer)
      queues := .run .empty operations },
    ⟨["a", "b"], []⟩, []⟩

/-- Node "a" has a queue of its own, and "d" left two. -/
def spread : Turn :=
  death [.create (.own "a" "2") (some (⟨1, "a.0000000001.wal"⟩, 0)),
    .create (.own "d" "2") (some (⟨1, "d.0000000001.wal"⟩, 0)),
    .create (.own "d" "3") (some (⟨1, "d.0000000001.wal"⟩, 0))]

/-- Nodes "a" and "b" hold one queue each. What "d" recovered from "a" goes back there, since "b" holds a queue
of the slot. -/
def goingBack : Turn :=
  death [.create (.own "a" "3") (some (⟨1, "a.0000000001.wal"⟩, 0)),
    .create ⟨"b", "2", "a"⟩ (some (⟨1, "a.0000000001.wal"⟩, 0)),
    .create ⟨"d", "2", "a"⟩ (some (⟨2, "a.0000000002.wal"⟩, 0)),
    .create (.own "d" "3") (some (⟨1, "d.0000000001.wal"⟩, 0))]

/-- The second queue is offered, on which the pass and the tables may disagree. -/
def second (start : Turn) : Turn := start.after registry 7

def eventsOf (turn : Turn) : List QueueEvent :=
  (turn.pass.step registry turn.database turn.membership).events

end Sample

/-- The first queue goes to "b", and the second to "a", which is the first by name of two that hold one each. -/
theorem goes_to_first_spread :
    let now := (Sample.second Sample.spread).database.queues
    .transferred (.own "d" "3") ⟨"a", "3", "d"⟩ ∈ Sample.eventsOf (Sample.second Sample.spread) ∧
      now.heldBy "a" = 1 ∧ now.heldBy "b" = 1 ∧
      First (reckoned Sample.spread.database.queues now) (Eligible now ["a", "b"] (.own "d" "3")) "a" := by
  have hevents : Sample.eventsOf (Sample.second Sample.spread) =
      [.transferred (.own "d" "3") ⟨"a", "3", "d"⟩] := by
    cbv
  have hmoved := hevents ▸ List.mem_singleton_self (QueueEvent.transferred (.own "d" "3") ⟨"a", "3", "d"⟩)
  have hfirst := @goes_to_first Sample.registry Sample.spread "d" rfl ⟨_, rfl⟩ 7 (.own "d" "3") ⟨"a", "3", "d"⟩
    hmoved (by decide)
  have hlive : (Sample.second Sample.spread).membership.live = ["a", "b"] := by cbv
  rw [← hlive]
  exact ⟨hmoved, by cbv, by cbv, hfirst.1⟩

/-- The first queue became its origin's own, which was not counted. So the second goes to node "a", which holds
two queues by then, though "b" holds one and may take it too. -/
theorem goes_to_heavier_after_return :
    let now := (Sample.second Sample.goingBack).database.queues
    Sample.goingBack.database.queues.Reachable ∧
      .transferred (.own "d" "3") ⟨"a", "3", "d"⟩ ∈ Sample.eventsOf (Sample.second Sample.goingBack) ∧
      now.heldBy "a" = 2 ∧ now.heldBy "b" = 1 ∧ Eligible now ["a", "b"] (.own "d" "3") "b" ∧
      ¬First now.heldBy (Eligible now ["a", "b"] (.own "d" "3")) "a" := by
  have hevents : Sample.eventsOf (Sample.second Sample.goingBack) =
      [.transferred (.own "d" "3") ⟨"a", "3", "d"⟩] := by
    cbv
  have ha : (Sample.second Sample.goingBack).database.queues.heldBy "a" = 2 := by cbv
  have hb : (Sample.second Sample.goingBack).database.queues.heldBy "b" = 1 := by cbv
  have hvacant : (Sample.second Sample.goingBack).database.queues.get? ⟨"b", "3", "d"⟩ = none := by cbv
  have hmay : Eligible (Sample.second Sample.goingBack).database.queues ["a", "b"] (.own "d" "3") "b" :=
    ⟨by decide, by decide, by decide, hvacant⟩
  refine ⟨⟨_, rfl⟩, hevents ▸ List.mem_singleton_self _, ha, hb, hmay, fun hfirst ↦ ?_⟩
  have hbefore := hfirst.before "b" hmay
  rw [Before, ha, hb] at hbefore
  omega

end LogShipping.Failover
