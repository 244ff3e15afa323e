import LogShipping.Proofs.Failover.Steps
import LogShipping.Proofs.Queue.Transfer
import Mathlib.Computability.Primrec.List
import Mathlib.Data.List.Permutation

/-!
# Coordinators in competition

Several coordinators go through the queues of the same dead nodes over one database. Their steps
interleave in any order, each acts on what it looked up some time ago, and nodes come and go in between.
A queue is nevertheless moved away from a key once only, until one is placed there again, and nothing
that is pending for a registered peer is lost. Both rest on the one call that hands a queue over, and on
no pass ever offering a queue to the node that owns it.
-/

namespace LogShipping

/-! ## What is pending for a peer -/

namespace QueueTables

variable {tables after : QueueTables} {key target other : QueueKey} {position : LogPosition}

/-- An octet of the origin's log is still to be shipped to the peer, on a queue of whichever node. -/
def Due (tables : QueueTables) (peer origin : String) (position : LogPosition) : Prop :=
  ∃ owner, tables.Pending ⟨owner, peer, origin⟩ position

/-- A queue whose offset and files stay keeps what is pending. -/
theorem pending_congr (wf : tables.WellFormed) (hafter : after.WellFormed)
    (hoffset : after.offset? key = tables.offset? key)
    (hlists : ∀ seq, after.lists key seq = tables.lists key seq) :
    after.Pending key position ↔ tables.Pending key position := by
  rw [pending_iff hafter, pending_iff wf, headSeq?_eq_some_iff, headSeq?_eq_some_iff, hoffset]
  simp only [hlists]

theorem pending_remove_of_ne (wf : tables.WellFormed) (hne : other ≠ key) :
    (tables.remove key).Pending other position ↔ tables.Pending other position := by
  refine pending_congr wf (wf.remove key) ?_ fun seq ↦ ?_
  · rw [offset?_remove, if_neg hne]
  · rw [lists_remove, bne_iff_ne.mpr hne, Bool.and_true]

/-- A queue that is handed over leaves those under other keys alone. -/
theorem pending_handOver_of_ne (wf : tables.WellFormed) (hafter : after.WellFormed) {newOwner : String}
    (hover : tables.handOver key newOwner = .ok after) (hkey : other ≠ key)
    (htarget : other ≠ key.withOwner newOwner) :
    after.Pending other position ↔ tables.Pending other position := by
  obtain ⟨offset, -, ⟨habsent, rfl⟩ | ⟨there, -, -, rfl⟩⟩ := handOver_eq_ok_iff.mp hover
  · refine pending_congr wf hafter ?_ fun seq ↦ ?_
    · rw [offset?_rename habsent, if_neg htarget, if_neg hkey]
    · rw [Bool.eq_iff_iff, lists_rename]
      simp [htarget, hkey]
  · refine pending_congr wf hafter ?_ fun seq ↦ ?_
    · rw [merge, offset?_remove, if_neg hkey, offset?_setOffset, if_neg htarget, offset?_foldl_addMissing]
    · rw [merge, lists_remove, bne_iff_ne.mpr hkey, Bool.and_true, lists_setOffset, Bool.eq_iff_iff,
        lists_foldl_addMissing]
      simp [htarget]

/-- A hand-over between different names keeps both queues. -/
theorem handedOver_of_handOver (wf : tables.WellFormed) {newOwner : String}
    (hover : tables.handOver key newOwner = .ok after) (hne : key.withOwner newOwner ≠ key) :
    HandedOver tables after key (key.withOwner newOwner) := by
  obtain ⟨offset, hoffset, ⟨habsent, rfl⟩ | ⟨there, hthere, -, rfl⟩⟩ := handOver_eq_ok_iff.mp hover
  · exact handedOver_rename wf hne (by rw [hoffset]; rfl) habsent
  · exact handedOver_merge wf hne hoffset hthere

/-- What is due to a peer stays due when a queue of another peer is dropped. -/
theorem due_remove (wf : tables.WellFormed) {peer origin : String} (hother : key.peer ≠ peer)
    (hdue : tables.Due peer origin position) : (tables.remove key).Due peer origin position := by
  obtain ⟨owner, hpending⟩ := hdue
  refine ⟨owner, (pending_remove_of_ne wf ?_).mpr hpending⟩
  rintro rfl
  exact hother rfl

/-- What is due stays due when a queue is handed over to another node. -/
theorem due_handOver (wf : tables.WellFormed) (hafter : after.WellFormed) {node peer origin : String}
    (hover : tables.handOver key node = .ok after) (hne : node ≠ key.owner)
    (hdue : tables.Due peer origin position) : after.Due peer origin position := by
  obtain ⟨owner, hpending⟩ := hdue
  have hmoved := handedOver_of_handOver wf hover fun hself ↦ hne (QueueStore.withOwner_eq_self_iff.mp hself)
  by_cases hkey : ⟨owner, peer, origin⟩ = key
  · subst hkey
    exact ⟨node, hmoved.keep position (.inl hpending)⟩
  by_cases htarget : ⟨owner, peer, origin⟩ = key.withOwner node
  · refine ⟨owner, ?_⟩
    rw [htarget] at hpending ⊢
    exact hmoved.keep position (.inr hpending)
  exact ⟨owner, (pending_handOver_of_ne wf hafter hover hkey htarget).mpr hpending⟩

end QueueTables

namespace Failover

/-! ## What a pass offers to whom -/

/-- The pass does not offer a queue to the node that owns it. -/
def Pass.OffersOthers : Pass → Prop
  | .offering _ key nodes _ _ => key.owner ∉ nodes
  | _ => True

theorem owner_not_mem_rankTargets (live : List String) (load : List (String × Nat))
    (holders : List String) (key : QueueKey) : key.owner ∉ rankTargets live load holders key := by
  rw [rankTargets, List.mem_append, not_or]
  constructor
  · rw [List.mem_mergeSort, List.mem_filter]
    simp [mayTake]
  · split
    case isTrue horigin =>
      rw [Bool.and_eq_true, bne_iff_ne] at horigin
      rw [List.mem_singleton]
      exact horigin.1.symm
    case isFalse => exact List.not_mem_nil

theorem Pass.OffersOthers.step {pass : Pass} (h : pass.OffersOthers) (registry : Registry)
    (database : Database) (membership : Membership) :
    (pass.step registry database membership).pass.OffersOthers := by
  cases pass with
  | asking node =>
    rw [Pass.step]
    dsimp only
    split <;> trivial
  | gathering node =>
    rw [Pass.step]
    split <;> trivial
  | counting queues =>
    rw [Pass.step]
    split <;> trivial
  | listing queues live load =>
    rw [Pass.step]
    split <;> trivial
  | choosing survey queues report =>
    cases queues with
    | nil => trivial
    | cons key queues =>
      rw [Pass.step]
      split
      case isTrue => exact owner_not_mem_rankTargets _ _ _ _
      case isFalse =>
        dsimp only
        split <;> trivial
  | offering survey key nodes queues report =>
    cases nodes with
    | nil => trivial
    | cons node nodes =>
      have hrest : key.owner ∉ nodes := fun hmem ↦ h (List.mem_cons_of_mem node hmem)
      rw [Pass.step]
      dsimp only
      split <;> trivial
  | done report => trivial
  | failed error => trivial

/-- A pass drops queues of peers that it does not find, and hands queues over to other nodes. -/
theorem Pass.call?_cases {pass : Pass} (h : pass.OffersOthers) (registry : Registry)
    (membership : Membership) :
    pass.call? registry membership = none ∨
    (∃ key, registry.contains key.peer = false ∧ pass.call? registry membership = some (.drop key)) ∨
    (∃ key node, node ≠ key.owner ∧
      pass.call? registry membership = some (.transfer membership key node)) := by
  cases pass with
  | asking | gathering | counting | listing | done | failed => exact .inl rfl
  | choosing survey queues report =>
    cases queues with
    | nil => exact .inl rfl
    | cons key queues =>
      cases hcontains : registry.contains key.peer with
      | true => exact .inl (by rw [call?, if_pos hcontains])
      | false =>
        exact .inr (.inl ⟨key, hcontains, by rw [call?, hcontains, if_neg Bool.false_ne_true]⟩)
  | offering survey key nodes queues report =>
    cases nodes with
    | nil => exact .inl rfl
    | cons node nodes =>
      have hne : node ≠ key.owner := by
        rintro rfl
        exact h List.mem_cons_self
      exact .inr (.inr ⟨key, node, hne, rfl⟩)

/-- The next step of a pass leaves the queues alone, or drops one whose peer it does not find, or hands
one over to another node. -/
theorem Pass.step_cases {pass : Pass} (h : pass.OffersOthers) (registry : Registry)
    (database : Database) (membership : Membership) :
    let turn := pass.step registry database membership
    (turn.database.queues = database.queues ∧ turn.events = []) ∨
    (∃ key, registry.contains key.peer = false ∧
      turn.database.queues = database.queues.remove key ∧
      turn.events = if (database.queues.offset? key).isSome then [.dropped key] else []) ∨
    (∃ key node, node ≠ key.owner ∧ database.queues.handOver key node = .ok turn.database.queues ∧
      turn.events = [.transferred key (key.withOwner node)]) := by
  have heffect := pass.effect_step registry database membership
  have hdatabase : (pass.step registry database membership).database = _ :=
    congrArg QueueStore.Effect.database heffect
  have hevents : (pass.step registry database membership).events = _ :=
    congrArg QueueStore.Effect.events heffect
  dsimp only
  rw [hdatabase, hevents]
  rcases call?_cases h registry membership with hcall | ⟨key, hlacks, hcall⟩ | ⟨key, node, hne, hcall⟩
  · rw [hcall]
    exact .inl ⟨rfl, rfl⟩
  · rw [hcall, Option.map_some, Option.getD_some, QueueStore.serve_drop]
    split
    case isTrue => exact .inr (.inl ⟨key, hlacks, rfl, rfl⟩)
    case isFalse => exact .inl ⟨rfl, rfl⟩
  · rw [hcall, Option.map_some, Option.getD_some, QueueStore.serve, QueueStore.Reply.effect]
    rcases QueueStore.transfer_cases database membership key node with ⟨after, hover, hreply⟩ | ⟨error, hreply⟩
    · rw [hreply]
      exact .inr (.inr ⟨key, node, hne, hover, rfl⟩)
    · rw [hreply]
      exact .inl ⟨rfl, rfl⟩

/-! ## Interleavings -/

/-- A coordinator with its registry, and where its pass stands. -/
structure Coordinator where
  registry : Registry
  pass : Pass

/-- Coordinators that share a database and a membership. -/
structure Rivals where
  database : Database
  membership : Membership
  coordinators : List Coordinator

namespace Rivals

inductive Act
  /-- A coordinator makes the next step of its pass. -/
  | step (index : Nat)
  /-- A coordinator hears of a node's death, and turns to its queues. -/
  | hear (index : Nat) (node : String)
  /-- A coordinator turns to queues that it has found without a live owner. -/
  | turn (index : Nat) (queues : List QueueKey)
  /-- Nodes come and go, or are reported otherwise than they are. -/
  | observe (membership : Membership)
  /-- The database is cut off, or within reach again. -/
  | connect (reachable : Bool)

/-- A coordinator is at another place from now on. -/
def place (rivals : Rivals) (index : Nat) (pass : Pass) : Rivals :=
  match rivals.coordinators[index]? with
  | none => rivals
  | some coordinator =>
    { rivals with coordinators := rivals.coordinators.set index { coordinator with pass } }

/-- What an act comes to, and what the queue store announces of it. -/
def act (rivals : Rivals) : Act → Rivals × List QueueEvent
  | .step index =>
    match rivals.coordinators[index]? with
    | none => (rivals, [])
    | some coordinator =>
      let turn := coordinator.pass.step coordinator.registry rivals.database rivals.membership
      (place ⟨turn.database, turn.membership, rivals.coordinators⟩ index turn.pass, turn.events)
  | .hear index node => (rivals.place index (.asking node), [])
  | .turn index queues => (rivals.place index (.counting queues), [])
  | .observe membership => ({ rivals with membership }, [])
  | .connect reachable => ({ rivals with database := { rivals.database with reachable } }, [])

/-- One act after the other. -/
def run (rivals : Rivals) : List Act → Rivals × List QueueEvent
  | [] => (rivals, [])
  | act :: acts =>
    let rest := (rivals.act act).1.run acts
    (rest.1, (rivals.act act).2 ++ rest.2)

def isRegistered (rivals : Rivals) (peer : String) : Bool := (rivals.database.peer? peer).isSome

/-- No pass is under way, and every cache agrees with the peer table. -/
structure Opening (rivals : Rivals) : Prop where
  tables : rivals.database.queues.Reachable
  idle : ∀ coordinator ∈ rivals.coordinators, coordinator.pass.result?.isSome = true
  agree : ∀ coordinator ∈ rivals.coordinators, ∀ peer,
    coordinator.registry.contains peer = rivals.isRegistered peer

/-- What every act keeps. -/
structure Sound (rivals : Rivals) : Prop where
  tables : rivals.database.queues.WellFormed
  others : ∀ coordinator ∈ rivals.coordinators, coordinator.pass.OffersOthers
  agree : ∀ coordinator ∈ rivals.coordinators, ∀ peer,
    coordinator.registry.contains peer = rivals.isRegistered peer

variable {rivals : Rivals}

theorem Opening.sound (h : rivals.Opening) : rivals.Sound where
  tables := h.tables.wellFormed
  others := by
    intro coordinator hmem
    have hover := h.idle coordinator hmem
    cases hpass : coordinator.pass with
    | offering => rw [hpass] at hover; cases hover
    | asking | gathering | counting | listing | choosing | done | failed => trivial
  agree := h.agree

theorem Sound.place (h : rivals.Sound) (index : Nat) {pass : Pass} (hpass : pass.OffersOthers) :
    (rivals.place index pass).Sound := by
  unfold Rivals.place
  split
  case h_1 => exact h
  case h_2 coordinator hcoordinator =>
    have hmem : coordinator ∈ rivals.coordinators := List.mem_of_getElem? hcoordinator
    refine ⟨h.tables, ?_, ?_⟩
    · intro other hother
      rcases List.mem_or_eq_of_mem_set hother with hold | rfl
      · exact h.others other hold
      · exact hpass
    · intro other hother
      rcases List.mem_or_eq_of_mem_set hother with hold | rfl
      · exact h.agree other hold
      · exact h.agree coordinator hmem

@[simp] theorem database_place (rivals : Rivals) (index : Nat) (pass : Pass) :
    (rivals.place index pass).database = rivals.database := by
  unfold place
  split <;> rfl

/-! ## One act -/

/-- An act leaves the queues alone, or drops one whose peer is not registered, or hands one over to
another node. -/
theorem act_cases (h : rivals.Sound) (act : Act) :
    ((rivals.act act).1.database.queues = rivals.database.queues ∧ (rivals.act act).2 = []) ∨
    (∃ key, rivals.isRegistered key.peer = false ∧
      (rivals.act act).1.database.queues = rivals.database.queues.remove key ∧
      (rivals.act act).2 =
        if (rivals.database.queues.offset? key).isSome then [.dropped key] else []) ∨
    (∃ key node, node ≠ key.owner ∧
      rivals.database.queues.handOver key node = .ok (rivals.act act).1.database.queues ∧
      (rivals.act act).2 = [.transferred key (key.withOwner node)]) := by
  cases act with
  | hear index node => exact .inl ⟨by rw [Rivals.act, database_place], rfl⟩
  | turn index queues => exact .inl ⟨by rw [Rivals.act, database_place], rfl⟩
  | observe membership => exact .inl ⟨rfl, rfl⟩
  | connect reachable => exact .inl ⟨rfl, rfl⟩
  | step index =>
    cases hcoordinator : rivals.coordinators[index]? with
    | none => exact .inl (by simp [Rivals.act, hcoordinator])
    | some coordinator =>
      have hmem : coordinator ∈ rivals.coordinators := List.mem_of_getElem? hcoordinator
      simp only [Rivals.act, hcoordinator, database_place]
      rcases Pass.step_cases (h.others coordinator hmem) coordinator.registry rivals.database
        rivals.membership with hsame | ⟨key, hlacks, hdrop⟩ | hover
      · exact .inl hsame
      · rw [h.agree coordinator hmem] at hlacks
        exact .inr (.inl ⟨key, hlacks, hdrop⟩)
      · exact .inr (.inr hover)

/-- The peer table stays as it is. -/
theorem isRegistered_act (rivals : Rivals) (act : Act) (peer : String) :
    (rivals.act act).1.isRegistered peer = rivals.isRegistered peer := by
  cases act with
  | hear | turn => rw [isRegistered, Rivals.act, database_place, isRegistered]
  | observe | connect => rfl
  | step index =>
    rw [Rivals.act]
    split
    case h_1 => rfl
    case h_2 coordinator _ =>
      simp only [isRegistered, database_place, Database.peer?]
      rw [Pass.peers_step]

theorem Sound.act (h : rivals.Sound) (act : Act) : (rivals.act act).1.Sound := by
  have htables : (rivals.act act).1.database.queues.WellFormed := by
    rcases act_cases h act with ⟨hsame, -⟩ | ⟨key, -, hdrop, -⟩ | ⟨key, node, -, hover, -⟩
    · rw [hsame]
      exact h.tables
    · rw [hdrop]
      exact h.tables.remove key
    · exact h.tables.perform (.handOver key node) hover
  have hagree : ∀ coordinator ∈ rivals.coordinators, ∀ peer,
      coordinator.registry.contains peer = (rivals.act act).1.isRegistered peer := by
    intro coordinator hmem peer
    rw [isRegistered_act]
    exact h.agree coordinator hmem peer
  cases act with
  | hear index node => exact h.place index trivial
  | turn index queues => exact h.place index trivial
  | observe membership => exact ⟨htables, h.others, hagree⟩
  | connect reachable => exact ⟨htables, h.others, hagree⟩
  | step index =>
    cases hcoordinator : rivals.coordinators[index]? with
    | none =>
      rw [Rivals.act, hcoordinator]
      exact h
    | some coordinator =>
      have hmem : coordinator ∈ rivals.coordinators := List.mem_of_getElem? hcoordinator
      simp only [isRegistered, Rivals.act, hcoordinator, database_place] at htables hagree ⊢
      let turn := coordinator.pass.step coordinator.registry rivals.database rivals.membership
      have hmoved : Sound ⟨turn.database, turn.membership, rivals.coordinators⟩ :=
        ⟨htables, h.others, hagree⟩
      exact hmoved.place index
        ((h.others coordinator hmem).step coordinator.registry rivals.database rivals.membership)

theorem Sound.run (h : rivals.Sound) (acts : List Act) : (rivals.run acts).1.Sound := by
  induction acts generalizing rivals with
  | nil => exact h
  | cons act acts ih => exact ih (h.act act)

theorem run_append (rivals : Rivals) (past future : List Act) :
    (rivals.run (past ++ future)).1 = ((rivals.run past).1.run future).1 := by
  induction past generalizing rivals with
  | nil => rfl
  | cons act acts ih => exact ih _

theorem isRegistered_run (rivals : Rivals) (acts : List Act) (peer : String) :
    (rivals.run acts).1.isRegistered peer = rivals.isRegistered peer := by
  induction acts generalizing rivals with
  | nil => rfl
  | cons act acts ih => exact (ih _).trans (rivals.isRegistered_act act peer)

/-! ## What is due stays due -/

theorem due_act (h : rivals.Sound) (act : Act) {peer origin : String} {position : LogPosition}
    (hregistered : rivals.isRegistered peer = true)
    (hdue : rivals.database.queues.Due peer origin position) :
    (rivals.act act).1.database.queues.Due peer origin position := by
  have hafter := (h.act act).tables
  rcases act_cases h act with ⟨hsame, -⟩ | ⟨key, hgone, hdrop, -⟩ | ⟨key, node, hne, hover, -⟩
  · rw [hsame]
    exact hdue
  · rw [hdrop]
    refine QueueTables.due_remove h.tables ?_ hdue
    rintro rfl
    rw [hregistered] at hgone
    cases hgone
  · exact QueueTables.due_handOver h.tables hafter hover hne hdue

theorem due_run (h : rivals.Sound) (acts : List Act) {peer origin : String} {position : LogPosition}
    (hregistered : rivals.isRegistered peer = true)
    (hdue : rivals.database.queues.Due peer origin position) :
    (rivals.run acts).1.database.queues.Due peer origin position := by
  induction acts generalizing rivals with
  | nil => exact hdue
  | cons act acts ih =>
    refine ih (h.act act) ?_ (due_act h act hregistered hdue)
    rw [isRegistered_act, hregistered]

/-! ## A queue departs once -/

/-- Between two departures of queues from a key, one arrives there. -/
def DepartsOnce (key : QueueKey) (events : List QueueEvent) : Prop :=
  ∀ earlier first between second later, events = earlier ++ first :: (between ++ second :: later) →
    first.departure? = some key → second.departure? = some key →
    ∃ event ∈ between, event.arrival? = some key

/-- What is not in the first of two parts is behind it. -/
theorem split_behind {α : Type} {first rest before after : List α} {x : α} (hnot : x ∉ first)
    (hparts : first ++ rest = before ++ x :: after) :
    ∃ middle, before = first ++ middle ∧ rest = middle ++ x :: after := by
  rcases List.append_eq_append_iff.mp hparts with ⟨middle, hbefore, hrest⟩ | ⟨middle, hfirst, hrest⟩
  · exact ⟨middle, hbefore, hrest⟩
  · cases middle with
    | nil => exact ⟨[], by rw [hfirst, List.append_nil, List.append_nil], hrest.symm⟩
    | cons y middle =>
      obtain ⟨rfl, -⟩ := List.cons.inj hrest
      refine absurd ?_ hnot
      rw [hfirst]
      exact List.mem_append_right _ List.mem_cons_self

theorem events_act (h : rivals.Sound) (act : Act) :
    (rivals.act act).2 = [] ∨ ∃ event, (rivals.act act).2 = [event] := by
  rcases act_cases h act with ⟨-, hevents⟩ | ⟨key, -, -, hevents⟩ | ⟨key, node, -, -, hevents⟩
  · exact .inl hevents
  · rw [hevents]
    split
    case isTrue => exact .inr ⟨_, rfl⟩
    case isFalse => exact .inl rfl
  · exact .inr ⟨_, hevents⟩

/-- A queue departs from where one stood, and none stands there then. -/
theorem offset?_of_departure (h : rivals.Sound) {act : Act} {event : QueueEvent} {key : QueueKey}
    (hevent : event ∈ (rivals.act act).2) (hgone : event.departure? = some key) :
    (rivals.database.queues.offset? key).isSome = true ∧
      (rivals.act act).1.database.queues.offset? key = none := by
  rcases act_cases h act with
    ⟨-, hevents⟩ | ⟨dropped, -, hdrop, hevents⟩ | ⟨source, node, -, hover, hevents⟩
  · rw [hevents] at hevent
    cases hevent
  · rw [hevents] at hevent
    split at hevent
    case isFalse => cases hevent
    case isTrue hthere =>
      obtain rfl := List.mem_singleton.mp hevent
      obtain rfl : dropped = key := Option.some.inj hgone
      exact ⟨hthere, by rw [hdrop, QueueTables.offset?_remove, if_pos rfl]⟩
  · rw [hevents] at hevent
    obtain rfl := List.mem_singleton.mp hevent
    obtain rfl : source = key := Option.some.inj hgone
    obtain ⟨offset, hoffset, -⟩ := QueueTables.handOver_eq_ok_iff.mp hover
    exact ⟨by rw [hoffset]; rfl, QueueTables.offset?_of_handOver hover⟩

/-- Where no queue stands and none arrives, none stands then. -/
theorem offset?_act_eq_none (h : rivals.Sound) {act : Act} {key : QueueKey}
    (habsent : rivals.database.queues.offset? key = none)
    (hnone : ∀ event ∈ (rivals.act act).2, event.arrival? ≠ some key) :
    (rivals.act act).1.database.queues.offset? key = none := by
  rcases act_cases h act with
    ⟨hsame, -⟩ | ⟨dropped, -, hdrop, -⟩ | ⟨source, node, -, hover, hevents⟩
  · rw [hsame, habsent]
  · rw [hdrop, QueueTables.offset?_remove, habsent, ite_self]
  · rw [← Option.not_isSome_iff_eq_none]
    intro hthere
    have harrival : (QueueTables.Operation.handOver source node).arrival? = some key :=
      QueueTables.arrival_of_appears habsent hover hthere
    refine hnone (.transferred source (source.withOwner node)) ?_ harrival
    rw [hevents]
    exact List.mem_singleton_self _

/-- Where no queue stands, one arrives before one departs. -/
theorem arrival_of_departure (h : rivals.Sound) {key : QueueKey}
    (habsent : rivals.database.queues.offset? key = none) {acts : List Act}
    {between later : List QueueEvent} {departure : QueueEvent}
    (hgone : departure.departure? = some key)
    (hevents : (rivals.run acts).2 = between ++ departure :: later) :
    ∃ event ∈ between, event.arrival? = some key := by
  induction acts generalizing rivals between with
  | nil => simp [Rivals.run] at hevents
  | cons act acts ih =>
    have hlater : departure ∉ (rivals.act act).2 := by
      intro hmem
      have hthere := (offset?_of_departure h hmem hgone).1
      rw [habsent] at hthere
      cases hthere
    obtain ⟨rest, rfl, hrest⟩ := split_behind hlater hevents
    by_cases harrives : ∃ event ∈ (rivals.act act).2, event.arrival? = some key
    case pos =>
      obtain ⟨event, hmem, harrival⟩ := harrives
      exact ⟨event, List.mem_append_left rest hmem, harrival⟩
    case neg =>
      have hstill : (rivals.act act).1.database.queues.offset? key = none :=
        offset?_act_eq_none h habsent fun event hmem harrival ↦ harrives ⟨event, hmem, harrival⟩
      obtain ⟨event, hmem, harrival⟩ := ih (h.act act) hstill hrest
      exact ⟨event, List.mem_append_right _ hmem, harrival⟩

theorem departsOnce_run (h : rivals.Sound) (acts : List Act) (key : QueueKey) :
    DepartsOnce key (rivals.run acts).2 := by
  induction acts generalizing rivals with
  | nil =>
    intro earlier first between second later hevents
    simp [Rivals.run] at hevents
  | cons act acts ih =>
    intro earlier first between second later hevents hfirst hsecond
    have hrun : (rivals.act act).2 ++ ((rivals.act act).1.run acts).2 =
        earlier ++ first :: (between ++ second :: later) := hevents
    rcases events_act h act with hnothing | ⟨event, hevent⟩
    · rw [hnothing] at hrun
      exact ih (h.act act) earlier first between second later hrun hfirst hsecond
    rw [hevent, List.singleton_append] at hrun
    cases earlier with
    | cons old earlier =>
      obtain ⟨-, hrest⟩ := List.cons.inj hrun
      exact ih (h.act act) earlier first between second later hrest hfirst hsecond
    | nil =>
      -- The act itself moves the queue away, so none stands under the key when the rest begins.
      obtain ⟨rfl, hrest⟩ := List.cons.inj hrun
      have hmem : event ∈ (rivals.act act).2 := by
        rw [hevent]
        exact List.mem_singleton_self event
      exact arrival_of_departure (h.act act) (offset?_of_departure h hmem hfirst).2 hsecond hrest

/-! ## Conservation -/

/-- Whatever the coordinators do and whoever lives or dies meanwhile, a queue departs from a key once
before one arrives there again, and between any two moments of a run nothing that is due to a registered
peer is lost. -/
theorem departsOnce_and_due_kept (h : rivals.Opening) (past future : List Act) :
    (∀ key, DepartsOnce key (rivals.run (past ++ future)).2) ∧
      ∀ peer origin position, rivals.isRegistered peer = true →
        (rivals.run past).1.database.queues.Due peer origin position →
        (rivals.run (past ++ future)).1.database.queues.Due peer origin position := by
  refine ⟨departsOnce_run h.sound _, fun peer origin position hregistered hdue ↦ ?_⟩
  rw [run_append]
  refine due_run (h.sound.run past) future ?_ hdue
  rw [isRegistered_run, hregistered]

/-- Node "rs-3" has died and left a queue. Two coordinators know the peer it ships to. -/
def bereft : Rivals where
  database := { Database.empty with
    peers := [⟨"2", "c", true⟩]
    queues := .run .empty [.create (.own "rs-3" "2") (some (⟨4, "rs-3.0000000004.wal"⟩, 100))] }
  membership := ⟨["rs-1", "rs-2"], []⟩
  coordinators :=
    let registry : Registry := ⟨[⟨⟨"2", "c", true⟩, 0⟩], true, 1⟩
    [⟨registry, .done .empty⟩, ⟨registry, .done .empty⟩]

/-- Both coordinators come to offer the queue before either does, and the second is late. -/
def bothClaim : List Act :=
  .hear 0 "rs-3" :: .hear 1 "rs-3" :: (List.replicate 6 [Act.step 0, Act.step 1]).flatten

/-- The new owner dies, its origin takes the queue back, and dies again. -/
def comeAndGo : List Act :=
  .observe ⟨["rs-3"], []⟩ :: .hear 1 "rs-1" :: (List.replicate 6 (Act.step 1) ++
    .observe ⟨["rs-2"], []⟩ :: .hear 0 "rs-3" :: List.replicate 6 (Act.step 0))

/-- The queue departs from its origin twice, and returns in between. -/
theorem departsOnce_and_due_kept_round_trip :
    bereft.Opening ∧
      (bereft.run (bothClaim ++ comeAndGo)).2 =
        [.transferred (.own "rs-3" "2") ⟨"rs-1", "2", "rs-3"⟩,
          .transferred ⟨"rs-1", "2", "rs-3"⟩ (.own "rs-3" "2"),
          .transferred (.own "rs-3" "2") ⟨"rs-2", "2", "rs-3"⟩] ∧
      bereft.isRegistered "2" = true ∧
      (bereft.run bothClaim).1.database.queues.Due "2" "rs-3" ⟨4, 100⟩ ∧
      (∀ key, DepartsOnce key (bereft.run (bothClaim ++ comeAndGo)).2) ∧
      (bereft.run (bothClaim ++ comeAndGo)).1.database.queues.Due "2" "rs-3" ⟨4, 100⟩ := by
  have hopening : bereft.Opening := by
    refine ⟨⟨_, rfl⟩, by decide, ?_⟩
    intro coordinator hmem peer
    simp only [bereft, List.mem_cons, List.not_mem_nil, or_false, or_self] at hmem
    subst hmem
    simp only [Registry.contains, Registry.cached?, isRegistered, Database.peer?, bereft,
      List.find?_singleton]
    split <;> rfl
  have hdue : (bereft.run bothClaim).1.database.queues.Due "2" "rs-3" ⟨4, 100⟩ := by
    have hget : (bereft.run bothClaim).1.database.queues.get? ⟨"rs-1", "2", "rs-3"⟩ =
        some ⟨⟨"rs-1", "2", "rs-3"⟩, [⟨4, "rs-3.0000000004.wal"⟩], 100⟩ := by
      cbv
    refine ⟨"rs-1", ?_⟩
    rw [QueueTables.Pending, hget]
    decide
  have hevents : (bereft.run (bothClaim ++ comeAndGo)).2 =
      [.transferred (.own "rs-3" "2") ⟨"rs-1", "2", "rs-3"⟩,
        .transferred ⟨"rs-1", "2", "rs-3"⟩ (.own "rs-3" "2"),
        .transferred (.own "rs-3" "2") ⟨"rs-2", "2", "rs-3"⟩] := by
    cbv
  obtain ⟨hdeparts, hkept⟩ := departsOnce_and_due_kept hopening bothClaim comeAndGo
  exact ⟨hopening, hevents, rfl, hdue, hdeparts, hkept "2" "rs-3" _ rfl hdue⟩

end Rivals

end Failover

end LogShipping
